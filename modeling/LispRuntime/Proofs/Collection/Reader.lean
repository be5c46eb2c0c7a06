import LispRuntime.Proofs.ArrayMap.Private
import LispRuntime.Proofs.Collection.Tables

/-! Tables whose keys can be read. Hashed, sorted or kept in the pairs of an array
map, a table has what a finite map of data has; values may be anything. -/

namespace LispRuntime

open ArrayMap (Setting Pairs)

/-- A machine that reads keys, and what the keys stand for. From the start on, no map
remembers a wrong hash, as far as keys are concerned. -/
structure Reader where
  machine : Machine
  start : Moment
  datumOf : Value → Datum
  bound : Nat
  remembers : start.RemembersWithin (bound + 1)
  enough : bound + 2 ≤ machine.limit

namespace Reader

def setting (reader : Reader) : Setting :=
  .ofData reader.machine reader.start reader.datumOf (reader.remembers.weaken (Nat.le_succ _))
    (Nat.le_of_succ_le reader.enough)

variable {reader : Reader} {now : Moment} {key : Value}

theorem same_iff {sought stored : Value} :
    reader.setting.same sought stored = true ↔ reader.datumOf stored = reader.datumOf sought :=
  beq_iff_eq

theorem reads (isKey : reader.setting.IsKey key) (le : reader.start ≤ now) :
    now.ReadsWithin (reader.bound + 1) key (reader.datumOf key) :=
  Moment.readsWithin_later le isKey

theorem equates (reader : Reader) (le : reader.start ≤ now) :
    Equates reader.machine now (reader.bound + 1) Value.equal := by
  intro between leBetween left right leftDatum rightDatum readLeft readRight
  have remembers := (le.trans leBetween).remembers _ (reader.remembers.weaken (Nat.le_succ _))
  exact Value.equal_always remembers (Nat.le_of_succ_le reader.enough) readLeft.1 readLeft.2
    readRight.1 readRight.2 between (le_refl _)

theorem orders (reader : Reader) (now : Moment) :
    Orders reader.machine now (Moment.ReadsWithin (reader.bound + 1)) Value.compare where
  later le _ _ := Moment.readsWithin_later le
  gives between _ _ _ _ _ readLeft readRight :=
    Value.compare_always readLeft.1 (readLeft.2.trans (Nat.le_of_succ_le reader.enough))
      readRight.1 (readRight.2.trans (Nat.le_of_succ_le reader.enough)) between (le_refl _)

theorem hash_gives (isKey : reader.setting.IsKey key) (le : reader.start ≤ now) :
    Gives reader.machine now key.hash fun hash _ => hash = (reader.datumOf key).hash := by
  have read := reads isKey le
  exact Value.hash_always (le.remembers _ (reader.remembers.weaken read.2)) read.1
    (read.2.trans (Nat.le_of_succ_le reader.enough)) now (le_refl _)

/-- Collections of such keys are equal if they are found to be by what compares
their elements. -/
theorem equal_gives_of_inner (le : reader.start ≤ now) {left right : Value}
    (inner : ∀ fuel, reader.bound ≤ fuel → left.identical right = false →
      Equates reader.machine now (reader.bound + 1) (Value.equalWithin (fuel + 1)) →
      Gives reader.machine now (Value.equalWithin (fuel + 2) left right) fun answer _ =>
        answer = true) :
    Gives reader.machine now (left.equal right) fun answer _ => answer = true := by
  rcases Nat.exists_eq_add_of_le' (Nat.le_of_add_left_le reader.enough) with ⟨fuel, limit⟩
  have enough := reader.enough
  rw [limit] at enough
  have within : reader.bound ≤ fuel := Nat.le_of_add_le_add_right enough
  apply Gives.looking rfl
  rw [limit]
  cases identical : left.identical right with
  | true =>
      rw [Value.equalWithin_of_identical identical]
      exact Gives.pure rfl
  | false =>
      apply inner fuel within identical
      exact Value.equalWithin_equates
        (le.remembers _ (reader.remembers.weaken (Nat.le_succ _)))
        (Nat.lt_of_lt_of_le (Nat.succ_pos _) reader.enough) (Nat.succ_le_succ within)

/-! ## Tables -/

/-- Entries, with what their keys stand for. -/
def table (reader : Reader) (entries : List (Value × Value)) : Keyed Value :=
  entries.map fun entry => (reader.datumOf entry.1, entry.2)

theorem keys_table (reader : Reader) (entries : List (Value × Value)) :
    (reader.table entries).keys = entries.map fun entry => reader.datumOf entry.1 := by
  rw [Keyed.keys, table, List.map_map]
  rfl

theorem table_put (reader : Reader) (new : Value × Value) (entries : List (Value × Value)) :
    reader.table (Table.put (fun entry => reader.datumOf entry.1) new entries) =
      Table.put Prod.fst (reader.datumOf new.1, new.2) (reader.table entries) :=
  Table.map_put Prod.fst (fun entry : Value × Value => (reader.datumOf entry.1, entry.2)) new
    entries

theorem table_drop (reader : Reader) (key : Datum) (entries : List (Value × Value)) :
    reader.table (Table.drop (fun entry => reader.datumOf entry.1) key entries) =
      Table.drop Prod.fst key (reader.table entries) :=
  Table.map_drop Prod.fst (fun entry : Value × Value => (reader.datumOf entry.1, entry.2)) key
    entries

/-- Entries one after the other, so that the last one counts. -/
def addAll (reader : Reader) (map : DatumMap) (entries : List (Value × Value)) : DatumMap :=
  entries.foldl (fun map entry => map.insert (reader.datumOf entry.1) entry.2) map

/-! ### Keys of tables -/

section

variable {ε : Type}

/-- Keys that can be read, with their hashes. -/
def HashedKeys (reader : Reader) (keyOf : ε → UInt32 × Value) (elements : List ε) : Prop :=
  ∀ element ∈ elements, reader.setting.IsKey (keyOf element).2 ∧
    (keyOf element).1 = (reader.datumOf (keyOf element).2).hash

/-- Keys that can be read, in ascending order. -/
structure SortedKeys (reader : Reader) (keyOf : ε → Value) (elements : List ε) : Prop where
  keys : ∀ element ∈ elements, reader.setting.IsKey (keyOf element)
  ascending : (elements.map fun element => reader.datumOf (keyOf element)).Pairwise (· < ·)

namespace HashedKeys

variable {keyOf : ε → UInt32 × Value} {elements : List ε}

theorem hashed (keys : reader.HashedKeys keyOf elements) (le : reader.start ≤ now) :
    ∀ element ∈ elements, HashTable.Hashed now (reader.bound + 1) keyOf
      (fun element => reader.datumOf (keyOf element).2) element :=
  fun element member => (keys element member).imp_left fun isKey => reads isKey le

theorem insert_gives (keys : reader.HashedKeys keyOf elements) (le : reader.start ≤ now)
    (isKey : reader.setting.IsKey key) {make : UInt32 → ε}
    (makes : ∀ hash, keyOf (make hash) = (hash, key)) :
    Gives reader.machine now
      (do
        let hash ← key.hash
        HashTable.insert keyOf Value.equal (make hash) elements)
      fun changed _ => reader.HashedKeys keyOf changed ∧
        changed = Table.put (fun element => reader.datumOf (keyOf element).2)
          (make (reader.datumOf key).hash) elements := by
  apply (hash_gives isKey le).bind
  rintro _ between leBetween rfl
  have later := le.trans leBetween
  have new : reader.HashedKeys keyOf [make (reader.datumOf key).hash] := by
    intro element member
    rw [List.mem_singleton.mp member, makes]
    exact ⟨isKey, rfl⟩
  refine (HashTable.insert_gives (reader.equates later)
    (new.hashed later _ (List.mem_singleton_self _)) (keys.hashed later)).weaken ?_
  rintro _ after _ rfl
  refine ⟨fun element member => ?_, rfl⟩
  rcases Table.mem_put member with rfl | member
  · exact new _ (List.mem_singleton_self _)
  · exact keys element member

theorem erase_gives (keys : reader.HashedKeys keyOf elements) (le : reader.start ≤ now)
    (isKey : reader.setting.IsKey key) :
    Gives reader.machine now
      (do
        let hash ← key.hash
        HashTable.erase keyOf Value.equal hash key elements)
      fun changed _ => reader.HashedKeys keyOf changed ∧
        changed = Table.drop (fun element => reader.datumOf (keyOf element).2)
          (reader.datumOf key) elements := by
  apply (hash_gives isKey le).bind
  rintro _ between leBetween rfl
  have later := le.trans leBetween
  refine (HashTable.erase_gives (reader.equates later) (reads isKey later)
    (keys.hashed later)).weaken ?_
  rintro _ after _ rfl
  exact ⟨fun element member => keys element (Table.mem_of_mem_drop member), rfl⟩

end HashedKeys

namespace SortedKeys

variable {keyOf : ε → Value} {elements : List ε}

theorem reads (sorted : reader.SortedKeys keyOf elements) (le : reader.start ≤ now) :
    ∀ element ∈ elements,
      now.ReadsWithin (reader.bound + 1) (keyOf element) (reader.datumOf (keyOf element)) :=
  fun element member => Reader.reads (sorted.keys element member) le

/-- The new element has its place in the order. -/
theorem put_gives (sorted : reader.SortedKeys keyOf elements) (le : reader.start ≤ now)
    {new : ε} (isKey : reader.setting.IsKey (keyOf new)) :
    Gives reader.machine now (SortedTable.insert keyOf Value.compare new elements)
      fun changed _ => reader.SortedKeys keyOf changed ∧
        changed = Table.putInOrder (fun element => reader.datumOf (keyOf element)) new
          elements := by
  refine (SortedTable.insert_gives (reader.orders now) (Reader.reads isKey le)
    (sorted.reads le)).weaken ?_
  rintro _ after _ rfl
  refine ⟨⟨fun element member => ?_, Table.putInOrder_sorted sorted.ascending⟩, rfl⟩
  rcases Table.mem_put ((Table.putInOrder_perm sorted.ascending).mem_iff.mp member) with
    rfl | member
  · exact isKey
  · exact sorted.keys element member

theorem insert_gives (sorted : reader.SortedKeys keyOf elements) (le : reader.start ≤ now)
    {new : ε} (isKey : reader.setting.IsKey (keyOf new)) :
    Gives reader.machine now (SortedTable.insert keyOf Value.compare new elements)
      fun changed _ => reader.SortedKeys keyOf changed ∧
        changed.Perm (Table.put (fun element => reader.datumOf (keyOf element)) new elements) := by
  apply (sorted.put_gives le isKey).weaken
  rintro _ after _ ⟨sortedAfter, rfl⟩
  exact ⟨sortedAfter, Table.putInOrder_perm sorted.ascending⟩

theorem erase_gives (sorted : reader.SortedKeys keyOf elements) (le : reader.start ≤ now)
    (isKey : reader.setting.IsKey key) :
    Gives reader.machine now (SortedTable.erase keyOf Value.compare key elements)
      fun changed _ => reader.SortedKeys keyOf changed ∧
        changed = Table.drop (fun element => reader.datumOf (keyOf element))
          (reader.datumOf key) elements := by
  refine (SortedTable.erase_gives (reader.orders now) (Reader.reads isKey le)
    (sorted.reads le) sorted.ascending).weaken ?_
  rintro _ after _ rfl
  exact ⟨⟨fun element member => sorted.keys element (Table.mem_of_mem_drop member),
    Table.drop_sorted sorted.ascending _⟩, rfl⟩

end SortedKeys

end

/-! ### Maps -/

/-- What a hash map keeps. -/
structure IsHashTable (reader : Reader) (entries : List Value.HashedEntry) (map : DatumMap) :
    Prop where
  keys : reader.HashedKeys Value.hashedKey entries
  isTable : map.IsTable (reader.table (entries.map Prod.snd))

/-- What a sorted map keeps. -/
structure IsSortedTable (reader : Reader) (entries : List (Value × Value)) (map : DatumMap) :
    Prop where
  sorted : reader.SortedKeys Prod.fst entries
  isTable : map.IsTable (reader.table entries)

namespace IsHashTable

variable {entries : List Value.HashedEntry} {map : DatumMap}

theorem nil (reader : Reader) : reader.IsHashTable [] ∅ := ⟨nofun, .empty⟩

theorem assoc_gives (isHashTable : reader.IsHashTable entries map) (le : reader.start ≤ now)
    (isKey : reader.setting.IsKey key) (value : Value) :
    Gives reader.machine now (HashTable.assoc entries key value) fun changed _ =>
      reader.IsHashTable changed (map.insert (reader.datumOf key) value) := by
  apply (isHashTable.keys.insert_gives le isKey fun _ => rfl).weaken
  rintro _ after _ ⟨keys, rfl⟩
  refine ⟨keys, ?_⟩
  have put := isHashTable.isTable.put (reader.datumOf key) value
  rwa [← reader.table_put (key, value), ← Table.map_put _ Prod.snd
    ((reader.datumOf key).hash, key, value)] at put

theorem dissoc_gives (isHashTable : reader.IsHashTable entries map) (le : reader.start ≤ now)
    (isKey : reader.setting.IsKey key) :
    Gives reader.machine now (HashTable.dissoc entries key) fun changed _ =>
      reader.IsHashTable changed (map.erase (reader.datumOf key)) := by
  apply (isHashTable.keys.erase_gives le isKey).weaken
  rintro _ after _ ⟨keys, rfl⟩
  refine ⟨keys, ?_⟩
  have drop := isHashTable.isTable.drop (reader.datumOf key)
  rwa [← reader.table_drop, ← Table.map_drop _ Prod.snd] at drop

theorem ofEntries_gives (le : reader.start ≤ now) {entries : List (Value × Value)}
    (keys : ∀ entry ∈ entries, reader.setting.IsKey entry.1) :
    Gives reader.machine now (HashTable.ofEntries entries) fun made _ =>
      reader.IsHashTable made (reader.addAll ∅ entries) := by
  apply Gives.foldlM reader.IsHashTable (.nil reader)
  intro moment leMoment entry member table map isHashTable
  exact isHashTable.assoc_gives (le.trans leMoment) (keys entry member) entry.2

end IsHashTable

namespace IsSortedTable

variable {entries : List (Value × Value)} {map : DatumMap}

theorem nil (reader : Reader) : reader.IsSortedTable [] ∅ := ⟨⟨nofun, .nil⟩, .empty⟩

theorem assoc_gives (isSortedTable : reader.IsSortedTable entries map)
    (le : reader.start ≤ now) (isKey : reader.setting.IsKey key) (value : Value) :
    Gives reader.machine now (SortedTable.assoc entries key value) fun changed _ =>
      reader.IsSortedTable changed (map.insert (reader.datumOf key) value) := by
  apply (isSortedTable.sorted.insert_gives le isKey).weaken
  rintro changed after _ ⟨sorted, perm⟩
  refine ⟨sorted, ?_⟩
  have put := isSortedTable.isTable.put (reader.datumOf key) value
  rw [← reader.table_put (key, value)] at put
  exact (perm.map _).trans put

theorem dissoc_gives (isSortedTable : reader.IsSortedTable entries map)
    (le : reader.start ≤ now) (isKey : reader.setting.IsKey key) :
    Gives reader.machine now (SortedTable.dissoc entries key) fun changed _ =>
      reader.IsSortedTable changed (map.erase (reader.datumOf key)) := by
  apply (isSortedTable.sorted.erase_gives le isKey).weaken
  rintro _ after _ ⟨sorted, rfl⟩
  refine ⟨sorted, ?_⟩
  have drop := isSortedTable.isTable.drop (reader.datumOf key)
  rwa [← reader.table_drop] at drop

theorem ofEntries_gives (le : reader.start ≤ now) {entries : List (Value × Value)}
    (keys : ∀ entry ∈ entries, reader.setting.IsKey entry.1) :
    Gives reader.machine now (SortedTable.ofEntries entries) fun made _ =>
      reader.IsSortedTable made (reader.addAll ∅ entries) := by
  apply Gives.foldlM reader.IsSortedTable (.nil reader)
  intro moment leMoment entry member table map isSortedTable
  exact isSortedTable.assoc_gives (le.trans leMoment) (keys entry member) entry.2

end IsSortedTable

/-! ### Pairs of an array map -/

section

variable {entries : Pairs} {map : DatumMap}

theorem has_eq (isTable : map.IsTable (reader.table entries)) (key : Value) :
    entries.has reader.setting.same key = decide (reader.datumOf key ∈ map) := by
  rw [Bool.eq_iff_iff, decide_eq_true_iff, ← isTable.mem_keys_iff, keys_table,
    ArrayMap.Pairs.has, List.any_eq_true, List.mem_map]
  exact exists_congr fun entry => and_congr_right fun _ => same_iff

theorem table_replace (key value : Value) (entries : Pairs)
    (has : entries.has reader.setting.same key = true) :
    reader.table (entries.replace reader.setting.same key value) =
      Table.put Prod.fst (reader.datumOf key, value) (reader.table entries) := by
  induction entries with
  | nil => cases has
  | cons entry rest induction =>
      have cons : reader.table (entry :: rest) =
          (reader.datumOf entry.1, entry.2) :: reader.table rest := rfl
      rw [ArrayMap.Pairs.has, List.any_cons, Bool.or_eq_true] at has
      rw [ArrayMap.Pairs.replace, cons, Table.put]
      by_cases same : reader.datumOf entry.1 = reader.datumOf key
      · rw [if_pos (same_iff.mpr same), if_pos same, ← same]
        rfl
      · have notHere : ¬reader.setting.same key entry.1 = true := same ∘ same_iff.mp
        rw [if_neg notHere, if_neg same, ← induction (has.resolve_left notHere)]
        rfl

/-- What an array map takes in, a finite map does. -/
theorem table_put_pairs {changed : Pairs} {value : Value}
    (put : entries.put reader.setting.same key value = .ok changed) :
    reader.table changed =
      Table.put Prod.fst (reader.datumOf key, value) (reader.table entries) := by
  unfold ArrayMap.Pairs.put at put
  split at put
  case isTrue has =>
    cases put
    exact table_replace key value entries has
  case isFalse absent =>
    rcases ArrayMap.Pairs.add_eq_ok put with ⟨rfl, _⟩
    have notKey : reader.datumOf key ∉ (reader.table entries).map Prod.fst := by
      intro member
      rw [← Keyed.keys, keys_table] at member
      rcases List.mem_map.mp member with ⟨entry, inside, same⟩
      exact absent (List.any_eq_true.mpr ⟨entry, inside, same_iff.mpr same⟩)
    rw [Table.put_of_not_mem notKey, table, List.map_append]
    rfl

theorem table_remove_pairs (key : Value) (entries : Pairs) :
    reader.table (entries.remove reader.setting.same key) =
      Table.drop Prod.fst (reader.datumOf key) (reader.table entries) := by
  rw [← table_drop, Table.drop]
  rfl

theorem isTable_addAll {before : Keyed Value} (isTable : map.IsTable before)
    (distinct : (Keyed.keys (before ++ reader.table entries)).Nodup) :
    (reader.addAll map entries).IsTable (before ++ reader.table entries) := by
  induction entries generalizing map before with
  | nil => rwa [table, List.map_nil, List.append_nil]
  | cons entry rest induction =>
      have grown : before ++ reader.table (entry :: rest) =
          before ++ [(reader.datumOf entry.1, entry.2)] ++ reader.table rest := by
        rw [List.append_assoc]
        rfl
      rw [grown] at distinct ⊢
      refine induction ?_ distinct
      have absent : reader.datumOf entry.1 ∉ before.map Prod.fst := by
        rw [Keyed.keys, List.append_assoc, List.map_append] at distinct
        exact fun member => (List.nodup_append.mp distinct).2.2 _ member _
          (List.mem_cons_self ..) rfl
      have put := isTable.put (reader.datumOf entry.1) entry.2
      rwa [Table.put_of_not_mem absent] at put

/-- The entries of a finite map, one after the other, make the map again. -/
theorem addAll_of_isTable (isTable : map.IsTable (reader.table entries)) :
    reader.addAll ∅ entries = map := by
  have again : (reader.addAll ∅ entries).IsTable ([] ++ reader.table entries) :=
    isTable_addAll .empty isTable.nodup
  exact Std.ExtTreeMap.ext_toList (List.Perm.trans (List.Perm.symm again) isTable)

end

end Reader

end LispRuntime
