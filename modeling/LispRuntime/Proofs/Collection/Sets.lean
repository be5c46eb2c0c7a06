import LispRuntime.Collection.Update
import LispRuntime.Proofs.Collection.Reader

/-! Sets of two kinds behave like finite sets of data, whatever is done to them. -/

namespace LispRuntime

open ArrayMap (Spares Achieves)

/-- The set of what the items stand for. -/
def DatumSet.ofItems (datumOf : Value → Datum) (items : List Value) : DatumSet :=
  items.foldl (fun set item => set.insert (datumOf item)) ∅

namespace Reader

variable {reader : Reader} {now : Moment} {key : Value} {set : DatumSet}

/-- What a hash set keeps. -/
structure IsHashItems (reader : Reader) (items : List Value.HashedItem) (set : DatumSet) :
    Prop where
  keys : reader.HashedKeys id items
  isListed : set.IsListed (items.map fun item => reader.datumOf item.2)

/-- What a sorted set keeps. -/
structure IsSortedItems (reader : Reader) (items : List Value) (set : DatumSet) : Prop where
  sorted : reader.SortedKeys id items
  isListed : set.IsListed (items.map reader.datumOf)

namespace IsHashItems

variable {items : List Value.HashedItem}

theorem nil (reader : Reader) : reader.IsHashItems [] ∅ := ⟨nofun, .empty⟩

theorem add_gives (isHashItems : reader.IsHashItems items set) (le : reader.start ≤ now)
    (isKey : reader.setting.IsKey key) :
    Gives reader.machine now (HashTable.addItem items key) fun changed _ =>
      reader.IsHashItems changed (set.insert (reader.datumOf key)) := by
  apply (isHashItems.keys.insert_gives le isKey fun _ => rfl).weaken
  rintro _ after _ ⟨keys, rfl⟩
  refine ⟨keys, ?_⟩
  have put := isHashItems.isListed.put (reader.datumOf key)
  rwa [← Table.map_put id (fun item : Value.HashedItem => reader.datumOf item.2)
    ((reader.datumOf key).hash, key)] at put

theorem remove_gives (isHashItems : reader.IsHashItems items set) (le : reader.start ≤ now)
    (isKey : reader.setting.IsKey key) :
    Gives reader.machine now (HashTable.removeItem items key) fun changed _ =>
      reader.IsHashItems changed (set.erase (reader.datumOf key)) := by
  apply (isHashItems.keys.erase_gives le isKey).weaken
  rintro _ after _ ⟨keys, rfl⟩
  refine ⟨keys, ?_⟩
  have drop := isHashItems.isListed.drop (reader.datumOf key)
  rwa [← Table.map_drop id (fun item : Value.HashedItem => reader.datumOf item.2)] at drop

theorem ofItems_gives (le : reader.start ≤ now) {items : List Value}
    (keys : ∀ item ∈ items, reader.setting.IsKey item) :
    Gives reader.machine now (HashTable.ofItems items) fun made _ =>
      reader.IsHashItems made (DatumSet.ofItems reader.datumOf items) := by
  apply Gives.foldlM reader.IsHashItems (.nil reader)
  intro moment leMoment item member table set isHashItems
  exact isHashItems.add_gives (le.trans leMoment) (keys item member)

end IsHashItems

namespace IsSortedItems

variable {items : List Value}

theorem nil (reader : Reader) : reader.IsSortedItems [] ∅ := ⟨⟨nofun, .nil⟩, .empty⟩

theorem add_gives (isSortedItems : reader.IsSortedItems items set) (le : reader.start ≤ now)
    (isKey : reader.setting.IsKey key) :
    Gives reader.machine now (SortedTable.addItem items key) fun changed _ =>
      reader.IsSortedItems changed (set.insert (reader.datumOf key)) := by
  apply (isSortedItems.sorted.insert_gives le isKey).weaken
  rintro changed after _ ⟨sorted, perm⟩
  refine ⟨sorted, ?_⟩
  have put := isSortedItems.isListed.put (reader.datumOf key)
  rw [← Table.map_put id reader.datumOf key] at put
  exact (perm.map _).trans put

theorem remove_gives (isSortedItems : reader.IsSortedItems items set) (le : reader.start ≤ now)
    (isKey : reader.setting.IsKey key) :
    Gives reader.machine now (SortedTable.removeItem items key) fun changed _ =>
      reader.IsSortedItems changed (set.erase (reader.datumOf key)) := by
  apply (isSortedItems.sorted.erase_gives le isKey).weaken
  rintro _ after _ ⟨sorted, rfl⟩
  refine ⟨sorted, ?_⟩
  have drop := isSortedItems.isListed.drop (reader.datumOf key)
  rwa [← Table.map_drop id reader.datumOf] at drop

theorem ofItems_gives (le : reader.start ≤ now) {items : List Value}
    (keys : ∀ item ∈ items, reader.setting.IsKey item) :
    Gives reader.machine now (SortedTable.ofItems items) fun made _ =>
      reader.IsSortedItems made (DatumSet.ofItems reader.datumOf items) := by
  apply Gives.foldlM reader.IsSortedItems (.nil reader)
  intro moment leMoment item member table set isSortedItems
  exact isSortedItems.add_gives (le.trans leMoment) (keys item member)

end IsSortedItems

/-- The value is a set of just these data. -/
inductive HoldsSet (reader : Reader) : Value → DatumSet → Prop where
  | hash {address : Nat} {items : List Value.HashedItem} {metadata : Option Value}
      {set : DatumSet} (isHashItems : reader.IsHashItems items set) :
      reader.HoldsSet (.hashSet address items metadata) set
  | sorted {address : Nat} {items : List Value} {metadata : Option Value}
      {set : DatumSet} (isSortedItems : reader.IsSortedItems items set) :
      reader.HoldsSet (.sortedSet address items metadata) set

namespace HoldsSet

variable {value : Value}

/-! ## Reading sets -/

theorem contents (holds : reader.HoldsSet value set) (world : World) :
    ∃ items, value.setItems? = some items ∧ (∀ item ∈ items, reader.setting.IsKey item) ∧
      set.IsListed (items.map reader.datumOf) ∧
      value.IsLawful world (items.map reader.datumOf) := by
  cases holds with
  | @hash address items metadata set isHashItems =>
      have listed : (items.map Prod.snd).map reader.datumOf =
          items.map fun item => reader.datumOf item.2 := List.map_map
      refine ⟨_, rfl, ?_, ?_, ?_, ?_⟩
      · intro item member
        rcases List.mem_map.mp member with ⟨hashed, inside, rfl⟩
        exact (isHashItems.keys hashed inside).1
      · rw [listed]
        exact isHashItems.isListed
      · rw [listed, List.map_map]
        exact List.map_congr_left fun item member => (isHashItems.keys item member).2
      · rw [listed]
        exact isHashItems.isListed.nodup
  | sorted isSortedItems =>
      exact ⟨_, rfl, isSortedItems.sorted.keys, isSortedItems.isListed,
        isSortedItems.sorted.ascending⟩

theorem memberWith_gives (holds : reader.HoldsSet value set) (le : reader.start ≤ now)
    {equal : Value → Value → Run Bool} {fuel : Nat} (within : reader.bound + 1 ≤ fuel)
    (equates : Equates reader.machine now (reader.bound + 1) equal) {sought : Value}
    {datum : Datum} (read : now.ReadsWithin (reader.bound + 1) sought datum) :
    Gives reader.machine now (Value.memberWith equal fuel value sought) fun found _ =>
      found = decide (datum ∈ set) := by
  rcases holds.contents now.world with ⟨items, contents, keys, isListed, lawful⟩
  have enough : 0 < reader.machine.limit := Nat.lt_of_lt_of_le (Nat.succ_pos _) reader.enough
  have readItems : now.ReadsAll items (items.map reader.datumOf) :=
    ReadsAll.of_forall₂ (List.forall₂_map_right_iff.mpr (List.forall₂_same.mpr
      fun item member => (reads (keys item member) le).1))
  have costs : ∀ datum ∈ items.map reader.datumOf, datum.cost ≤ reader.bound + 1 := by
    intro datum member
    rcases List.mem_map.mp member with ⟨item, inside, rfl⟩
    exact (reads (keys item inside) le).2
  have finds := Value.memberWith_gives (le.remembers _ reader.remembers) enough within equates
    read contents readItems costs lawful
  simpa only [isListed.mem_iff] using finds

theorem setMember_gives (holds : reader.HoldsSet value set) (le : reader.start ≤ now)
    {sought : Value} {datum : Datum}
    (read : now.ReadsWithin (reader.bound + 1) sought datum) :
    Gives reader.machine now (value.setMember sought) fun found _ =>
      found = decide (datum ∈ set) :=
  Gives.looking rfl
    (holds.memberWith_gives le (Nat.le_of_succ_le reader.enough) (reader.equates le) read)

theorem containsKey_gives (holds : reader.HoldsSet value set) (le : reader.start ≤ now)
    {sought : Value} {datum : Datum}
    (read : now.ReadsWithin (reader.bound + 1) sought datum) :
    Gives reader.machine now (value.containsKey sought) fun found _ =>
      found = decide (datum ∈ set) := by
  have looks := holds.setMember_gives le read
  cases holds <;> exact looks

theorem getOr_gives (holds : reader.HoldsSet value set) (le : reader.start ≤ now)
    {sought : Value} {datum : Datum}
    (read : now.ReadsWithin (reader.bound + 1) sought datum) (default : Value) :
    Gives reader.machine now (value.getOr sought default) fun found _ =>
      found = if datum ∈ set then sought else default := by
  have looks := holds.setMember_gives le read
  cases holds <;>
  · apply looks.bind
    rintro _ _ _ rfl
    exact Gives.pure (by simp)

theorem count_gives (holds : reader.HoldsSet value set) :
    Gives reader.machine now value.count.run fun found _ => found = .ok set.size := by
  rcases holds.contents now.world with ⟨items, contents, _, isListed, _⟩
  have size : items.length = set.size := by rw [← isListed.length_eq, List.length_map]
  cases holds <;> cases contents <;> exact Gives.pure (congrArg Except.ok size)

/-- Sets of the same data are equal, whatever their kinds. -/
theorem equal_gives (holds : reader.HoldsSet value set) (le : reader.start ≤ now)
    {other : Value} (holdsOther : reader.HoldsSet other set) :
    Gives reader.machine now (value.equal other) fun answer _ => answer = true := by
  apply equal_gives_of_inner le
  intro fuel within distinct equates
  rcases holds.contents now.world with ⟨items, contents, keys, isListed, _⟩
  rcases holdsOther.contents now.world with ⟨otherItems, otherContents, _, otherIsListed, _⟩
  have lengths : items.length = otherItems.length := by
    rw [← List.length_map reader.datumOf, isListed.length_eq, ← otherIsListed.length_eq,
      List.length_map]
  rw [Value.equalWithin_sets contents otherContents distinct]
  unfold Value.equalSets
  rw [if_pos lengths]
  apply Value.forAll_true
  intro between leBetween item member
  have later := le.trans leBetween
  refine (holdsOther.memberWith_gives later (Nat.succ_le_succ within)
    (equates.from_later leBetween) (reads (keys _ member) later)).weaken ?_
  rintro _ _ _ rfl
  have inSet := (isListed.mem_iff _).mp (List.mem_map_of_mem member)
  simp [inSet]

end HoldsSet

end Reader

/-! ## Steps -/

inductive SetStep where
  | conj (item : Value)
  | disj (item : Value)

namespace SetStep

def item : SetStep → Value
  | conj item | disj item => item

def perform (step : SetStep) (set : Value) : Attempt Value :=
  match step with
  | conj item => set.conj item
  | disj item => set.disj item

/-- What a finite set has after the step. -/
def advance (datumOf : Value → Datum) (set : DatumSet) : SetStep → DatumSet
  | conj item => set.insert (datumOf item)
  | disj item => set.erase (datumOf item)

end SetStep

namespace Reader

variable {reader : Reader} {now : Moment} {key : Value} {set : DatumSet}

private theorem newHashSet_gives {items : List Value.HashedItem}
    (isHashItems : reader.IsHashItems items set) (metadata : Option Value) :
    Gives reader.machine now (Value.newHashSet items metadata) fun value _ =>
      reader.HoldsSet value set :=
  Gives.freshAddress.bind fun _ _ _ _ => Gives.pure (.hash isHashItems)

private theorem newSortedSet_gives {items : List Value}
    (isSortedItems : reader.IsSortedItems items set) (metadata : Option Value) :
    Gives reader.machine now (Value.newSortedSet items metadata) fun value _ =>
      reader.HoldsSet value set :=
  Gives.freshAddress.bind fun _ _ _ _ => Gives.pure (.sorted isSortedItems)

/-- What a step does to a set of any kind is what it does to the finite set. -/
theorem perform_set_achieves {value : Value} (holds : reader.HoldsSet value set)
    (le : reader.start ≤ now) (step : SetStep) (isKey : reader.setting.IsKey step.item) :
    Achieves reader.setting now none (step.perform value) fun changed _ =>
      reader.HoldsSet changed (step.advance reader.datumOf set) := by
  cases step <;> cases holds
  case conj.hash isHashItems =>
    apply Achieves.reading (isHashItems.add_gives le isKey)
    intro changed between leBetween added
    exact Achieves.lift (Spares.of_gives (le.trans leBetween) (newHashSet_gives added _))
  case conj.sorted isSortedItems =>
    apply Achieves.reading (isSortedItems.add_gives le isKey)
    intro changed between leBetween added
    exact Achieves.lift (Spares.of_gives (le.trans leBetween) (newSortedSet_gives added _))
  case disj.hash isHashItems =>
    apply Achieves.reading (isHashItems.remove_gives le isKey)
    intro changed between leBetween removed
    exact Achieves.lift (Spares.of_gives (le.trans leBetween) (newHashSet_gives removed _))
  case disj.sorted isSortedItems =>
    apply Achieves.reading (isSortedItems.remove_gives le isKey)
    intro changed between leBetween removed
    exact Achieves.lift (Spares.of_gives (le.trans leBetween) (newSortedSet_gives removed _))

theorem hashSetOf_gives (le : reader.start ≤ now) {items : List Value}
    (keys : ∀ item ∈ items, reader.setting.IsKey item) :
    Gives reader.machine now (Value.hashSetOf items) fun value _ =>
      reader.HoldsSet value (DatumSet.ofItems reader.datumOf items) :=
  (IsHashItems.ofItems_gives le keys).bind fun _ _ _ isHashItems =>
    newHashSet_gives isHashItems none

theorem sortedSetOf_gives (le : reader.start ≤ now) {items : List Value}
    (keys : ∀ item ∈ items, reader.setting.IsKey item) :
    Gives reader.machine now (Value.sortedSetOf items) fun value _ =>
      reader.HoldsSet value (DatumSet.ofItems reader.datumOf items) :=
  (IsSortedItems.ofItems_gives le keys).bind fun _ _ _ isSortedItems =>
    newSortedSet_gives isSortedItems none

end Reader

end LispRuntime
