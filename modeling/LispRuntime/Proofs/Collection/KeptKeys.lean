import LispRuntime.Proofs.Collection.Agreement
import LispRuntime.Proofs.Transient.Persistent

/-! Keys that are equal need not be one object: they may be tagged differently or carry
metadata. When an entry is written again under an equal key, hash maps and sorted maps
take the new key with the new value, and array maps keep the key that they have. What an
array map has kept, it hands on when it becomes a hash map. -/

namespace LispRuntime

open ArrayMap (Achieves Denoted Pairs Spares)
open MapWrite (additions)

/-! ## The keys that are to be kept -/

/-- The write with the key itself for a value. -/
def MapWrite.echo : MapWrite → MapWrite
  | add key _ => add key key
  | remove key => remove key

namespace MapState

/-- A finite map of the kept keys goes through a write. Only where an array map has an
equal key does a new one not come in. -/
def keep (datumOf : Value → Datum) (state : MapState) : MapWrite → MapState
  | .add key _ =>
      if state.kind = .array ∧ datumOf key ∈ state.map then state
      else state.add (datumOf key) key
  | .remove key => state.remove (datumOf key)

def keepAll (datumOf : Value → Datum) (state : MapState) (writes : List MapWrite) : MapState :=
  writes.foldl (keep datumOf) state

variable {datumOf : Value → Datum} {state : MapState}

theorem keepAll_append (state : MapState) (first second : List MapWrite) :
    state.keepAll datumOf (first ++ second) =
      (state.keepAll datumOf first).keepAll datumOf second :=
  List.foldl_append

theorem keepAll_additions (state : MapState) (pairs : List (Value × Value)) :
    state.keepAll datumOf (additions pairs) =
      pairs.foldl (fun state pair => state.keep datumOf (.add pair.1 pair.2)) state :=
  List.foldl_map

theorem keep_of_ne (notArray : state.kind ≠ .array) (write : MapWrite) :
    state.keep datumOf write = state.write datumOf write.echo := by
  cases write with
  | add key value => exact if_neg (notArray ∘ And.left)
  | remove key => rfl

/-- Maps that are no array maps keep the last one of equal keys. -/
theorem keepAll_map_of_ne {kind : MapKind} (notArray : kind ≠ .array) (writes : List MapWrite) :
    (keepAll datumOf ⟨kind, ∅⟩ writes).map =
      DatumMap.ofWrites datumOf (writes.map MapWrite.echo) := by
  have same : ∀ state : MapState, state.kind ≠ .array →
      state.keepAll datumOf writes = state.writeAll datumOf (writes.map MapWrite.echo) := by
    induction writes with
    | nil => exact fun _ _ => rfl
    | cons write rest induction =>
        intro state notArray
        have still : (state.write datumOf write.echo).kind ≠ .array := by
          rwa [← writeAll_kind notArray [write.echo]] at notArray
        rw [keepAll, List.foldl_cons, keep_of_ne notArray]
        exact induction _ still
  rw [same _ notArray, writeAll_map]

/-! ### The keys as data -/

/-- States of one kind that have the same keys, as far as these are data. -/
structure SameKeys (left right : MapState) : Prop where
  kind : left.kind = right.kind
  size : left.map.size = right.map.size
  mem_iff : ∀ datum, datum ∈ left.map ↔ datum ∈ right.map

theorem SameKeys.add {left right : MapState} (same : left.SameKeys right) (datum : Datum)
    (value other : Value) : (left.add datum value).SameKeys (right.add datum other) where
  kind := by simp only [MapState.add, same.kind, same.size, same.mem_iff]
  size := by
    simp only [MapState.add, Std.ExtTreeMap.size_insert, Std.ExtTreeMap.contains_iff_mem,
      same.size, same.mem_iff]
  mem_iff datum := by simp only [MapState.add, Std.ExtTreeMap.mem_insert, same.mem_iff]

theorem SameKeys.remove {left right : MapState} (same : left.SameKeys right) (datum : Datum) :
    (left.remove datum).SameKeys (right.remove datum) where
  kind := same.kind
  size := by
    simp only [MapState.remove, Std.ExtTreeMap.size_erase, Std.ExtTreeMap.contains_iff_mem,
      same.size, same.mem_iff]
  mem_iff datum := by simp only [MapState.remove, Std.ExtTreeMap.mem_erase, same.mem_iff]

/-- A key that is there anyway changes no keys. -/
theorem sameKeys_add {datum : Datum} (has : datum ∈ state.map) (value : Value) :
    state.SameKeys (state.add datum value) where
  kind := (if_neg fun full => full.2.2 has).symm
  size := by simp [MapState.add, Std.ExtTreeMap.size_insert, has]
  mem_iff other := by
    rw [MapState.add, Std.ExtTreeMap.mem_insert]
    refine ⟨.inr, fun member => member.elim (fun same => ?_) id⟩
    rwa [← Datum.eq_of_compare _ _ same]

theorem SameKeys.keep_write {left right : MapState} (same : left.SameKeys right)
    (write : MapWrite) : (left.keep datumOf write).SameKeys (right.write datumOf write) := by
  cases write with
  | remove key => exact same.remove _
  | add key value =>
      rw [keep]
      split
      case isFalse => exact same.add _ _ _
      case isTrue has =>
        have unchanged := sameKeys_add ((same.mem_iff _).mp has.2) value
        exact ⟨same.kind.trans unchanged.kind, same.size.trans unchanged.size,
          fun datum => (same.mem_iff datum).trans (unchanged.mem_iff datum)⟩

/-- Whichever keys are kept, they are equal to those of the entries, and an array map
becomes a hash map at the same write. -/
theorem keepAll_sameKeys (kind : MapKind) (writes : List MapWrite) :
    (keepAll datumOf ⟨kind, ∅⟩ writes).SameKeys (writeAll datumOf ⟨kind, ∅⟩ writes) := by
  induction writes using List.reverseRec with
  | nil => exact ⟨rfl, rfl, fun _ => Iff.rfl⟩
  | append_singleton before write induction =>
      rw [keepAll_append, writeAll_append]
      exact induction.keep_write write

/-! ### When it does not matter -/

/-- What is kept has been written. -/
theorem exists_of_echo {writes : List MapWrite} {datum : Datum} {key : Value}
    (kept : (DatumMap.ofWrites datumOf (writes.map MapWrite.echo))[datum]? = some key) :
    ∃ write ∈ writes, write.key = key ∧ datumOf key = datum := by
  induction writes using List.reverseRec with
  | nil => simp [DatumMap.ofWrites] at kept
  | append_singleton before write induction =>
      rw [List.map_append, List.map_singleton, DatumMap.ofWrites, List.foldl_concat] at kept
      have earlier (last : MapWrite)
          (kept : (DatumMap.ofWrites datumOf (before.map MapWrite.echo))[datum]? = some key) :
          ∃ write ∈ before ++ [last], write.key = key ∧ datumOf key = datum :=
        (induction kept).imp fun _ known => known.imp_left (List.mem_append_left _)
      cases write with
      | add added value =>
          rw [MapWrite.echo, DatumMap.write, Std.ExtTreeMap.getElem?_insert] at kept
          split at kept
          case isTrue same =>
            cases kept
            exact ⟨_, List.mem_append_right _ (List.mem_singleton_self _), rfl,
              Datum.eq_of_compare _ _ same⟩
          case isFalse => exact earlier _ kept
      | remove removed =>
          rw [MapWrite.echo, DatumMap.write, Std.ExtTreeMap.getElem?_erase] at kept
          split at kept
          case isTrue => cases kept
          case isFalse => exact earlier _ kept

/-- Where equal keys are one object, maps of all kinds keep it. -/
theorem keepAll_map_of_faithful (kind : MapKind) {writes : List MapWrite}
    (faithful : ∀ write ∈ writes, ∀ other ∈ writes,
      datumOf write.key = datumOf other.key → write.key = other.key) :
    (keepAll datumOf ⟨kind, ∅⟩ writes).map =
      DatumMap.ofWrites datumOf (writes.map MapWrite.echo) := by
  induction writes using List.reverseRec with
  | nil => rfl
  | append_singleton before write induction =>
      have known := induction fun one member other memberOther =>
        faithful one (List.mem_append_left _ member) other (List.mem_append_left _ memberOther)
      rw [List.map_append, List.map_singleton, DatumMap.ofWrites, List.foldl_concat, keepAll,
        List.foldl_concat]
      change (MapState.keep datumOf (keepAll datumOf ⟨kind, ∅⟩ before) write).map =
        DatumMap.write datumOf (DatumMap.ofWrites datumOf (before.map MapWrite.echo)) write.echo
      rw [← known]
      generalize keepAll datumOf ⟨kind, ∅⟩ before = state at known ⊢
      cases write with
      | remove key => rfl
      | add key value =>
          rw [keep]
          split
          case isFalse => rfl
          case isTrue has =>
            -- The key that is there is the one that comes.
            have ⟨old, stored⟩ : ∃ old, state.map[datumOf key]? = some old :=
              ⟨_, Std.ExtTreeMap.getElem?_eq_some_getElem has.2⟩
            rcases exists_of_echo (known ▸ stored) with ⟨earlier, member, rfl, isKey⟩
            have one : earlier.key = key := faithful earlier (List.mem_append_left _ member)
              (.add key value) (List.mem_append_right _ (List.mem_singleton_self _)) isKey
            rw [one] at stored
            apply Std.ExtTreeMap.ext_getElem?
            intro datum
            rw [MapWrite.echo, DatumMap.write, Std.ExtTreeMap.getElem?_insert]
            split
            case isFalse => rfl
            case isTrue found => rw [← Datum.eq_of_compare _ _ found, stored]

end MapState

/-! ## The keys of contents -/

/-- The entries by what their keys stand for, each with its key. -/
def storedKeys (datumOf : Value → Datum) (entries : List (Value × Value)) : Keyed Value :=
  entries.map fun entry => (datumOf entry.1, entry.1)

namespace Contents

section

variable {datumOf : Value → Datum} {entries : List (Value × Value)} {keys : DatumMap}

theorem storedKeys_put (new : Value × Value) (entries : List (Value × Value)) :
    storedKeys datumOf (Table.put (fun entry => datumOf entry.1) new entries) =
      Table.put Prod.fst (datumOf new.1, new.1) (storedKeys datumOf entries) :=
  Table.map_put Prod.fst (fun entry : Value × Value => (datumOf entry.1, entry.1)) new entries

theorem storedKeys_drop (datum : Datum) (entries : List (Value × Value)) :
    storedKeys datumOf (Table.drop (fun entry => datumOf entry.1) datum entries) =
      Table.drop Prod.fst datum (storedKeys datumOf entries) :=
  Table.map_drop Prod.fst (fun entry : Value × Value => (datumOf entry.1, entry.1)) datum entries

theorem keys_storedKeys (entries : List (Value × Value)) :
    (storedKeys datumOf entries).keys = entries.map fun entry => datumOf entry.1 := by
  rw [Keyed.keys, storedKeys, List.map_map]
  rfl

theorem has_iff {pairs : Pairs} (isTable : keys.IsTable (storedKeys datumOf pairs)) (key : Value) :
    pairs.has (isSameKey datumOf) key = true ↔ datumOf key ∈ keys := by
  rw [← isTable.mem_keys_iff, keys_storedKeys, ArrayMap.Pairs.has, List.any_eq_true, List.mem_map]
  simp only [isSameKey, beq_iff_eq]

/-- What is replaced keeps its key. -/
theorem storedKeys_replace {same : Value → Value → Bool} (key value : Value) (pairs : Pairs) :
    storedKeys datumOf (pairs.replace same key value) = storedKeys datumOf pairs := by
  have ofKeys (entries : Pairs) : storedKeys datumOf entries =
      (entries.map Prod.fst).map fun key => (datumOf key, key) := by
    rw [List.map_map]
    rfl
  rw [ofKeys, ArrayMap.Pairs.keys_replace, ← ofKeys]

/-- Distinct keys all come into the hash map, and none takes the place of another. -/
theorem promoted_of_nodup {pairs : Pairs}
    (distinct : (pairs.map fun pair => datumOf pair.1).Nodup) :
    promoted datumOf pairs = pairs.map fun pair => ((datumOf pair.1).hash, pair) := by
  induction pairs using List.reverseRec with
  | nil => rfl
  | append_singleton before pair induction =>
      rw [List.map_append] at distinct
      rcases List.nodup_append.mp distinct with ⟨distinctBefore, _, apart⟩
      rw [promoted, List.foldl_concat, ← promoted, induction distinctBefore, putHashed,
        Table.put_of_not_mem, List.map_append]
      · rfl
      · rw [List.map_map]
        exact fun member => apart _ member _ (List.mem_singleton_self _) rfl

end

/-- The keys of the entries are those that are to be kept, in a map of the same kind. -/
inductive KeepsKeys (datumOf : Value → Datum) : Contents → MapState → Prop where
  | arrayMap {pairs : Pairs} {keys : DatumMap}
      (isTable : keys.IsTable (storedKeys datumOf pairs))
      (fits : pairs.length ≤ ArrayMap.maxPairs) :
      KeepsKeys datumOf (.arrayMap pairs) ⟨.array, keys⟩
  | hashMap {entries : List Value.HashedEntry} {keys : DatumMap}
      (isTable : keys.IsTable (storedKeys datumOf (entries.map Prod.snd))) :
      KeepsKeys datumOf (.hashMap entries) ⟨.hash, keys⟩
  | sortedMap {entries : List (Value × Value)} {keys : DatumMap}
      (isTable : keys.IsTable (storedKeys datumOf entries))
      (ascending : (entries.map fun entry => datumOf entry.1).Pairwise (· < ·)) :
      KeepsKeys datumOf (.sortedMap entries) ⟨.sorted, keys⟩

namespace KeepsKeys

variable {datumOf : Value → Datum} {contents changed : Contents} {state : MapState}
  {key value : Value}

theorem putHashed {entries : List Value.HashedEntry} {keys : DatumMap}
    (isTable : keys.IsTable (storedKeys datumOf (entries.map Prod.snd))) (key value : Value) :
    DatumMap.IsTable (keys.insert (datumOf key) key)
      (storedKeys datumOf ((Contents.putHashed datumOf entries key value).map Prod.snd)) := by
  have put := isTable.put (datumOf key) key
  rwa [← storedKeys_put (key, value),
    ← Table.map_put _ Prod.snd ((datumOf key).hash, key, value)] at put

theorem assocPairs {pairs : Pairs} {keys : DatumMap}
    (isTable : keys.IsTable (storedKeys datumOf pairs))
    (fits : pairs.length ≤ ArrayMap.maxPairs) (key value : Value) :
    KeepsKeys datumOf (Contents.assocPairs datumOf pairs key value)
      (MapState.keep datumOf ⟨.array, keys⟩ (.add key value)) := by
  have size : pairs.length = keys.size := by
    rw [← isTable.length_eq, storedKeys, List.length_map]
  rw [MapState.keep]
  cases put : pairs.put (isSameKey datumOf) key value with
  | ok pairsAfter =>
      rw [assocPairs_of_ok put]
      rw [ArrayMap.Pairs.put] at put
      split at put
      case isTrue has =>
        cases put
        rw [if_pos ⟨rfl, (has_iff isTable key).mp has⟩]
        refine .arrayMap ?_ ?_
        · rwa [storedKeys_replace]
        · rwa [ArrayMap.Pairs.length_replace]
      case isFalse absent =>
        rw [has_iff isTable] at absent
        rcases ArrayMap.Pairs.add_eq_ok put with ⟨rfl, room⟩
        rw [if_neg (absent ∘ And.right), MapState.add,
          if_neg fun full => room.ne (size.trans full.2.1)]
        refine .arrayMap ?_ ?_
        · have new := isTable.put (datumOf key) key
          rwa [← storedKeys_put (key, value), Table.put_of_not_mem] at new
          rwa [← keys_storedKeys, isTable.mem_keys_iff]
        · rw [List.length_append]
          exact room
  | error error =>
      rw [assocPairs_of_error put]
      rw [ArrayMap.Pairs.put] at put
      split at put
      case isTrue => cases put
      case isFalse absent =>
        rw [has_iff isTable] at absent
        have full := fits.antisymm (ArrayMap.Pairs.add_eq_error_iff.mp put).1
        rw [if_neg (absent ∘ And.right), MapState.add,
          if_pos ⟨rfl, size.symm.trans full, absent⟩]
        refine .hashMap (putHashed ?_ key value)
        have distinct := isTable.nodup
        rw [keys_storedKeys] at distinct
        rw [promoted_of_nodup distinct, List.map_map]
        change keys.IsTable (storedKeys datumOf (pairs.map id))
        rwa [List.map_id]

theorem assoc (keeps : KeepsKeys datumOf contents state)
    (made : contents.assoc datumOf key value = some changed) :
    KeepsKeys datumOf changed (state.keep datumOf (.add key value)) := by
  cases keeps with
  | arrayMap isTable fits =>
      cases made
      exact assocPairs isTable fits key value
  | hashMap isTable =>
      cases made
      rw [MapState.keep, if_neg (by simp), MapState.add_of_ne (by simp)]
      exact .hashMap (putHashed isTable key value)
  | sortedMap isTable ascending =>
      cases made
      rw [MapState.keep, if_neg (by simp), MapState.add_of_ne (by simp)]
      have put := isTable.put (datumOf key) key
      rw [← storedKeys_put (key, value)] at put
      exact .sortedMap (((Table.putInOrder_perm ascending).map _).trans put)
        (Table.putInOrder_sorted ascending)

theorem dissoc (keeps : KeepsKeys datumOf contents state)
    (made : contents.dissoc datumOf key = some changed) :
    KeepsKeys datumOf changed (state.keep datumOf (.remove key)) := by
  cases keeps with
  | @arrayMap pairs keys isTable fits =>
      cases made
      have drop := isTable.drop (datumOf key)
      rw [← storedKeys_drop] at drop
      exact .arrayMap drop (List.eraseP_sublist.length_le.trans fits)
  | hashMap isTable =>
      cases made
      have drop := isTable.drop (datumOf key)
      rw [← storedKeys_drop, ← Table.map_drop _ Prod.snd] at drop
      exact .hashMap drop
  | sortedMap isTable ascending =>
      cases made
      have drop := isTable.drop (datumOf key)
      rw [← storedKeys_drop] at drop
      exact .sortedMap drop (Table.drop_sorted ascending _)

theorem assocAll {entries : List (Value × Value)} (keeps : KeepsKeys datumOf contents state)
    (made : contents.assocAll datumOf entries = some changed) :
    KeepsKeys datumOf changed (state.keepAll datumOf (additions entries)) := by
  induction entries generalizing contents state with
  | nil =>
      cases made
      exact keeps
  | cons entry rest induction =>
      rw [assocAll_cons] at made
      rcases Option.bind_eq_some_iff.mp made with ⟨middle, first, others⟩
      exact induction (keeps.assoc first) others

theorem shape_eq (keeps : KeepsKeys datumOf contents state) : contents.shape = .map := by
  cases keeps <;> rfl

end KeepsKeys

end Contents

/-! ## Steps of maps -/

/-- The step as a change of contents. -/
def MapStep.change : MapStep → Change
  | assoc key value => .assoc key value
  | dissoc key => .dissoc key
  | conj item => .conj item.value

theorem MapItem.addedEntries?_eq (item : MapItem) : item.value.addedEntries? = some item.pairs := by
  cases item with
  | entry address key value metadata => rfl
  | entries map entries contents =>
      change map.addedEntries? = some entries
      rw [Value.addedEntries?_eq_mapEntries?, contents]
      rintro address key value metadata rfl
      cases contents

namespace MapStep

variable {datumOf : Value → Datum} {contents : Contents} {state : MapState}

theorem persistent_change (step : MapStep) : step.change.persistent = step.perform := by
  cases step <;> rfl

theorem sought_change (step : MapStep) :
    step.change.sought .map = step.writes.map MapWrite.key := by
  cases step with
  | assoc | dissoc => rfl
  | conj item =>
      change (item.value.addedEntries?.getD []).map Prod.fst =
        (additions item.pairs).map MapWrite.key
      rw [item.addedEntries?_eq, additions, List.map_map]
      rfl

theorem exists_change (keeps : contents.KeepsKeys datumOf state) (step : MapStep) :
    ∃ changed, contents.change datumOf step.change = some changed ∧
      changed.KeepsKeys datumOf (state.keepAll datumOf step.writes) := by
  cases step with
  | assoc key value =>
      rcases Contents.exists_assoc keeps.shape_eq key value with ⟨changed, made⟩
      exact ⟨changed, made, keeps.assoc made⟩
  | dissoc key =>
      have ⟨changed, made⟩ : ∃ changed, contents.dissoc datumOf key = some changed := by
        cases keeps <;> exact ⟨_, rfl⟩
      exact ⟨changed, made, keeps.dissoc made⟩
  | conj item =>
      rcases Contents.exists_assocAll keeps.shape_eq item.pairs with ⟨changed, made⟩
      refine ⟨changed, ?_, keeps.assocAll made⟩
      have all : contents.conj datumOf item.value =
          item.value.addedEntries?.bind fun entries => contents.assocAll datumOf entries := by
        cases keeps <;> rfl
      rw [change, Contents.change, all, item.addedEntries?_eq]
      exact made

end MapStep

/-! ## Maps of each kind -/

namespace MapKind

/-- A new map of the pairs; one of array maps becomes a hash map if it has to. -/
def make (pairs : List (Value × Value)) : MapKind → Attempt Value
  | array => Value.ofPairs pairs
  | hash => ExceptT.lift (Value.hashMapOf pairs)
  | sorted => ExceptT.lift (Value.sortedMapOf pairs)

/-- The map at first and after every step. -/
def run (kind : MapKind) (pairs : List (Value × Value)) (steps : List MapStep) :
    Attempt (List Value) := do
  trace (fun map step => step.perform map) (← kind.make pairs) steps

end MapKind

/-- The map is of the kind, and its keys are those that are to be kept. -/
structure Value.KeepsKeys (datumOf : Value → Datum) (map : Value) (state : MapState) : Prop where
  tagName : map.tagName = state.kind.tagName
  keys : ∃ entries, map.mapEntries? = some entries ∧
    state.map.IsTable (storedKeys datumOf entries)

namespace Reader

variable {reader : Reader} {now : Moment} {written : Option Nat} {map : Value} {state : MapState}

/-- The map has contents with these keys. -/
def Keeps (reader : Reader) (now : Moment) (map : Value) (state : MapState) : Prop :=
  ∃ contents, reader.Shows now map contents ∧ contents.KeepsKeys reader.datumOf state

/-- So it is with a map that is being made. -/
def KeepsTable (reader : Reader) (handle : Nat) (now : Moment) (table : MapTable)
    (state : MapState) : Prop :=
  ∃ contents, reader.Builds (some handle) now (Editable.ofMapTable table) contents ∧
    contents.KeepsKeys reader.datumOf state

namespace Keeps

theorem kept (keeps : reader.Keeps now map state) {after : Moment}
    (still : ∀ handle pairs, Denoted reader.setting now handle pairs →
      Denoted reader.setting after handle pairs) : reader.Keeps after map state := by
  rcases keeps with ⟨contents, shows, keys⟩
  exact ⟨contents, shows.kept fun handle pairs _ => still handle pairs, keys⟩

theorem keepsKeys (keeps : reader.Keeps now map state) :
    map.KeepsKeys reader.datumOf state := by
  rcases keeps with ⟨contents, shows, keys⟩
  cases keys with
  | arrayMap isTable =>
      cases shows
      exact ⟨rfl, _, rfl, isTable⟩
  | hashMap isTable =>
      cases shows
      exact ⟨rfl, _, rfl, isTable⟩
  | sortedMap isTable =>
      cases shows
      exact ⟨rfl, _, rfl, isTable⟩

theorem perform_achieves (keeps : reader.Keeps now map state) (le : reader.start ≤ now)
    (step : MapStep) (keys : ∀ write ∈ step.writes, reader.setting.IsKey write.key) :
    Achieves reader.setting now none (step.perform map) fun changed after =>
      reader.Keeps after changed (state.keepAll reader.datumOf step.writes) := by
  rcases keeps with ⟨contents, shows, keepsKeys⟩
  rcases MapStep.exists_change keepsKeys step with ⟨changed, made, keepsAfter⟩
  have sought : ∀ key ∈ step.change.sought contents.shape, reader.setting.IsKey key := by
    rw [keepsKeys.shape_eq, step.sought_change]
    exact List.forall_mem_map.mpr keys
  have follows := change_shows shows le step.change sought
  rw [made, step.persistent_change] at follows
  exact Achieves.weaken follows fun _ _ shows => ⟨changed, shows, keepsAfter⟩

end Keeps

/-! ### Made of pairs -/

theorem KeepsTable.assoc_achieves {handle : Nat} {table : MapTable} {key : Value}
    (keeps : reader.KeepsTable handle now table state) (le : reader.start ≤ now)
    (isKey : reader.setting.IsKey key) (value : Value) :
    Achieves reader.setting now (some handle) (table.assoc key value) fun changed after =>
      reader.KeepsTable handle after changed (state.keep reader.datumOf (.add key value)) := by
  rcases keeps with ⟨contents, builds, keepsKeys⟩
  cases table with
  | small other =>
      cases builds with
      | arrayMap own denoted =>
          cases own
          exact (assocSmall_builds denoted le isKey value).weaken fun _ _ builds =>
            ⟨_, builds, keepsKeys.assoc rfl⟩
  | hashed entries =>
      cases builds with
      | hashMap keys =>
          apply Achieves.reading (hashAssoc_gives keys le isKey value)
          rintro _ after leAfter ⟨keysAfter, rfl⟩
          exact Achieves.pure (le.trans leAfter) ⟨_, .hashMap keysAfter, keepsKeys.assoc rfl⟩

theorem ofPairs_keeps (le : reader.start ≤ now) {pairs : List (Value × Value)}
    (keys : ∀ pair ∈ pairs, reader.setting.IsKey pair.1) :
    Achieves reader.setting now none (Value.ofPairs pairs) fun map after =>
      reader.Keeps after map (MapState.keepAll reader.datumOf ⟨.array, ∅⟩ (additions pairs)) := by
  rw [MapState.keepAll_additions]
  apply Achieves.opening (ArrayMap.create_spares le)
  intro handle between leBetween denoted
  have first : reader.KeepsTable handle between (.small handle) ⟨.array, ∅⟩ :=
    ⟨_, .arrayMap rfl denoted, .arrayMap .empty (Nat.zero_le _)⟩
  apply (Achieves.foldlM (reader.KeepsTable handle) leBetween first
    fun moment leMoment pair member table state keeps =>
      keeps.assoc_achieves leMoment (keys pair member) pair.2).bind
  rintro table after leAfter ⟨contents, builds, keepsKeys⟩
  rw [← publish_ofMapTable, publish_none]
  exact (publish_achieves builds leAfter).weaken fun _ _ shows => ⟨contents, shows, keepsKeys⟩

theorem hashMapOf_keeps (le : reader.start ≤ now) {pairs : List (Value × Value)}
    (keys : ∀ pair ∈ pairs, reader.setting.IsKey pair.1) :
    Gives reader.machine now (Value.hashMapOf pairs) fun map after =>
      reader.Keeps after map (MapState.keepAll reader.datumOf ⟨.hash, ∅⟩ (additions pairs)) := by
  rw [MapState.keepAll_additions]
  have makes : Gives reader.machine now (HashTable.ofEntries pairs) fun made _ =>
      reader.HashedKeys Value.hashedKey made ∧ (Contents.hashMap made).KeepsKeys reader.datumOf
        (pairs.foldl (fun state pair => state.keep reader.datumOf (.add pair.1 pair.2))
          ⟨.hash, ∅⟩) := by
    apply Gives.foldlM (fun made state => reader.HashedKeys Value.hashedKey made ∧
      (Contents.hashMap made).KeepsKeys reader.datumOf state)
      ⟨(IsHashTable.nil reader).keys, .hashMap .empty⟩
    rintro moment leMoment pair member made state ⟨hashed, keeps⟩
    apply (hashAssoc_gives hashed (le.trans leMoment) (keys pair member) pair.2).weaken
    rintro _ _ _ ⟨hashedAfter, rfl⟩
    exact ⟨hashedAfter, keeps.assoc rfl⟩
  apply makes.bind
  rintro made between _ ⟨hashed, keeps⟩
  exact Gives.freshAddress.bind fun _ _ _ _ => Gives.pure ⟨_, .hashMap hashed, keeps⟩

theorem sortedMapOf_keeps (le : reader.start ≤ now) {pairs : List (Value × Value)}
    (keys : ∀ pair ∈ pairs, reader.setting.IsKey pair.1) :
    Gives reader.machine now (Value.sortedMapOf pairs) fun map after =>
      reader.Keeps after map (MapState.keepAll reader.datumOf ⟨.sorted, ∅⟩ (additions pairs)) := by
  rw [MapState.keepAll_additions]
  have makes : Gives reader.machine now (SortedTable.ofEntries pairs) fun made _ =>
      reader.SortedKeys Prod.fst made ∧ (Contents.sortedMap made).KeepsKeys reader.datumOf
        (pairs.foldl (fun state pair => state.keep reader.datumOf (.add pair.1 pair.2))
          ⟨.sorted, ∅⟩) := by
    apply Gives.foldlM (fun made state => reader.SortedKeys Prod.fst made ∧
      (Contents.sortedMap made).KeepsKeys reader.datumOf state)
      ⟨(IsSortedTable.nil reader).sorted, .sortedMap .empty .nil⟩
    rintro moment leMoment pair member made state ⟨sorted, keeps⟩
    apply (sorted.put_gives (le.trans leMoment) (keys pair member)).weaken
    rintro _ _ _ ⟨sortedAfter, rfl⟩
    exact ⟨sortedAfter, keeps.assoc rfl⟩
  apply makes.bind
  rintro made between _ ⟨sorted, keeps⟩
  exact Gives.freshAddress.bind fun _ _ _ _ => Gives.pure ⟨_, .sortedMap sorted, keeps⟩

theorem make_achieves (le : reader.start ≤ now) (kind : MapKind) {pairs : List (Value × Value)}
    (keys : ∀ pair ∈ pairs, reader.setting.IsKey pair.1) :
    Achieves reader.setting now none (kind.make pairs) fun map after =>
      reader.Keeps after map (MapState.keepAll reader.datumOf ⟨kind, ∅⟩ (additions pairs)) := by
  cases kind with
  | array => exact ofPairs_keeps le keys
  | hash => exact Achieves.lift (Spares.of_gives le (hashMapOf_keeps le keys))
  | sorted => exact Achieves.lift (Spares.of_gives le (sortedMapOf_keeps le keys))

theorem run_achieves (le : reader.start ≤ now) (kind : MapKind) {pairs : List (Value × Value)}
    {steps : List MapStep}
    (keys : ∀ write ∈ additions pairs ++ steps.flatMap MapStep.writes,
      reader.setting.IsKey write.key) :
    Achieves reader.setting now none (kind.run pairs steps) fun maps after =>
      List.Forall₂ (reader.Keeps after) maps
        (steps.scanl (fun state step => state.keepAll reader.datumOf step.writes)
          (MapState.keepAll reader.datumOf ⟨kind, ∅⟩ (additions pairs))) := by
  have pairKeys : ∀ pair ∈ pairs, reader.setting.IsKey pair.1 := fun pair member =>
    keys (.add pair.1 pair.2)
      (List.mem_append_left _ (List.mem_map.mpr ⟨pair, member, rfl⟩))
  apply (make_achieves le kind pairKeys).bind
  intro map between leBetween keeps
  apply trace_achieves reader.Keeps (fun keeps => keeps.kept) leBetween keeps
  intro moment leMoment step member map state keeps
  exact keeps.perform_achieves leMoment step fun write inside =>
    keys write (List.mem_append_right _ (List.mem_flatMap.mpr ⟨step, member, inside⟩))

end Reader

/-- From the same pairs, through the same steps: hash maps and sorted maps keep the last
of equal keys, array maps the first, until they become hash maps. -/
theorem MapKind.run_keepsKeys {moment : Moment} (remembers : moment.RemembersRight)
    (datumOf : Value → Datum) (pairs : List (Value × Value)) (steps : List MapStep)
    (reads : ∀ write ∈ additions pairs ++ steps.flatMap MapStep.writes,
      moment.Reads write.key (datumOf write.key)) :
    ∃ enough, ∀ machine : Machine, enough ≤ machine.limit → ∀ kind : MapKind,
      Succeeds machine moment (kind.run pairs steps) fun maps _ =>
        List.Forall₂ (Value.KeepsKeys datumOf) maps
          (steps.scanl (fun state step => state.keepAll datumOf step.writes)
            (MapState.keepAll datumOf ⟨kind, ∅⟩ (additions pairs))) := by
  rcases Reader.exists_forall_machine remembers (List.forall_mem_map.mpr reads) with
    ⟨enough, readers⟩
  refine ⟨enough, fun machine within kind => ?_⟩
  rcases readers machine within with ⟨reader, rfl, rfl, rfl, _, isKeys⟩
  rcases Reader.run_achieves (le_refl _) kind (List.forall_mem_map.mp isKeys) with
    ⟨_, after, ran, le, _, maps, rfl, keeps⟩
  exact ⟨_, after, ran, le, maps, rfl, keeps.imp fun _ _ => Reader.Keeps.keepsKeys⟩

/-! ### A list that is written for a vector -/

private def ones : Datum := .sequence [.leaf (.integer 1)]

private def oneVector : Value := .vector 0 [.integer 1] none

private def oneList : Value := .list 1 [.integer 1] none

/-- The vector and the list are there. -/
private def holdingOnes : Moment := (Moment.initial.place ones).place ones

private theorem holdingOnes_remembers : holdingOnes.RemembersRight :=
  fun _ handle _ known => by cases known

private theorem holdingOnes_reads :
    ∀ write ∈ additions [(oneVector, .integer 1)] ++
      [MapStep.assoc oneList (.integer 2)].flatMap MapStep.writes,
      holdingOnes.Reads write.key ones := by
  have one : holdingOnes.Reads (.integer 1) (.leaf (.integer 1)) := .leaf rfl nofun
  intro write member
  simp only [additions, List.map_cons, List.map_nil, List.flatMap_cons, List.flatMap_nil,
    MapStep.writes, List.cons_append, List.nil_append, List.mem_cons, List.not_mem_nil,
    or_false] at member
  rcases member with rfl | rfl
  · refine .sequence rfl (.vector (.cons one .nil)) ?_
    rintro _ ⟨⟩
    rfl
  · refine .sequence rfl (.list (.cons one .nil)) ?_
    rintro _ ⟨⟩
    rfl

theorem MapKind.run_keepsKeys_of_ones :
    holdingOnes.RemembersRight ∧
    (∀ write ∈ additions [(oneVector, .integer 1)] ++
      [MapStep.assoc oneList (.integer 2)].flatMap MapStep.writes,
      holdingOnes.Reads write.key ones) ∧
    ∃ enough, ∀ machine : Machine, enough ≤ machine.limit → ∀ kind : MapKind,
      Succeeds machine holdingOnes
        (kind.run [(oneVector, .integer 1)] [.assoc oneList (.integer 2)]) fun maps _ =>
          List.Forall₂ (Value.KeepsKeys fun _ => ones) maps
            [MapState.keepAll (fun _ => ones) ⟨kind, ∅⟩ [.add oneVector (.integer 1)],
              MapState.keepAll (fun _ => ones) ⟨kind, ∅⟩
                [.add oneVector (.integer 1), .add oneList (.integer 2)]] :=
  ⟨holdingOnes_remembers, holdingOnes_reads,
    MapKind.run_keepsKeys holdingOnes_remembers (fun _ => ones) [(oneVector, .integer 1)]
      [.assoc oneList (.integer 2)] holdingOnes_reads⟩

/-- The keys of the last map. -/
private def lastKeys : Option (Except Error (List Value) × World) → List Value
  | some (.ok maps, _) => ((maps.getLast?.bind Value.mapEntries?).getD []).map Prod.fst
  | _ => []

/-- When the list is written for the vector, the array map keeps the vector, and the other
maps take the list. -/
theorem MapKind.run_keeps_first_or_last :
    let run (kind : MapKind) : List Value :=
      lastKeys ((kind.run [(oneVector, .integer 1)] [.assoc oneList (.integer 2)]).run
        ⟨fun _ _ _ _ => none, [], 8⟩ holdingOnes.world)
    run .array = [oneVector] ∧ run .hash = [oneList] ∧ run .sorted = [oneList] ∧
      oneVector ≠ oneList :=
  ⟨rfl, rfl, rfl, nofun⟩

end LispRuntime
