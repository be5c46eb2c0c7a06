import LispRuntime.Proofs.Metadata.Contents
import LispRuntime.Proofs.Metadata.Lookups
import LispRuntime.Proofs.Transient.Opening

/-! Changes of collections that differ in nothing but metadata. Where a map, a set or a vector is
changed, what comes of it follows from the contents, and contents that are alike stay alike.
Where it cannot be changed, or is no such collection, the error tells no more than the name of a
type, an index and a length. -/

namespace LispRuntime

open ArrayMap (Achieves Denoted Pairs)

/-! ## What keys stand for -/

/-- What the value stands for, if it stands for anything. -/
noncomputable def Moment.datumOf (moment : Moment) (value : Value) : Datum :=
  open Classical in if known : moment.WellFormed value then known.choose else .leaf .nil

section

variable {moment : Moment} {left right value : Value}

theorem Moment.reads_datumOf (known : moment.WellFormed value) :
    moment.Reads value (moment.datumOf value) := by
  rw [Moment.datumOf, dif_pos known]
  exact known.choose_spec

theorem Moment.Twins.keyAlike (twins : moment.Twins left right) :
    KeyAlike moment.world.deferred moment.datumOf left right where
  alike := twins.alike
  same := twins.alike.datum_eq (Moment.reads_datumOf twins.left) (Moment.reads_datumOf twins.right)

theorem AllAlike.keyAlike {values others : List Value} {data otherData : List Datum}
    (alike : AllAlike moment.world.deferred values others) (read : moment.ReadsAll values data)
    (readToo : moment.ReadsAll others otherData) :
    List.Forall₂ (KeyAlike moment.world.deferred moment.datumOf) values others := by
  induction values generalizing others data otherData with
  | nil =>
      cases alike
      exact .nil
  | cons value rest induction =>
      cases alike with
      | cons first alikeRest =>
          cases read with
          | cons readFirst readRest =>
              cases readToo with
              | cons readFirstToo readRestToo =>
                  have twins : moment.Twins value _ := ⟨first, ⟨_, readFirst⟩, ⟨_, readFirstToo⟩⟩
                  exact .cons twins.keyAlike (induction alikeRest readRest readRestToo)

theorem ReadsAll.wellFormed {values : List Value} {data : List Datum}
    (read : moment.ReadsAll values data) : ∀ value ∈ values, moment.WellFormed value := by
  intro value member
  induction values generalizing data with
  | nil => cases member
  | cons first rest induction =>
      cases read with
      | cons readFirst readRest =>
          rcases List.mem_cons.mp member with rfl | member
          · exact ⟨_, readFirst⟩
          · exact induction readRest member

theorem Moment.WellFormed.keys (known : moment.WellFormed value) {contents : Contents}
    (has : value.contents? = some contents) : ∀ key ∈ contents.keys, moment.WellFormed key := by
  rcases known with ⟨datum, read⟩
  cases value <;> cases has
  case arrayMap | sortedMap =>
    rcases read.exists_entries rfl with ⟨_, _, _, readKeys, _⟩
    exact readKeys.wellFormed
  case hashMap =>
    rcases read.exists_entries rfl with ⟨_, _, _, readKeys, _⟩
    rw [List.map_map] at readKeys
    exact readKeys.wellFormed
  case vector => exact nofun
  case hashSet | sortedSet =>
    rcases read.exists_elements rfl with ⟨_, _, readItems, _⟩
    exact readItems.wellFormed

end

namespace Moment.Twins

variable {moment : Moment} {left right : Value}

theorem mapEntries (twins : moment.Twins left right) :
    Option.Rel (List.Forall₂ (KeyedAlike moment.world.deferred moment.datumOf))
      left.mapEntries? right.mapEntries? := by
  have alike := twins.alike.mapEntries
  rcases twins.exists_datum with ⟨datum, read, readToo⟩
  generalize here : left.mapEntries? = entries, there : right.mapEntries? = others at alike ⊢
  cases alike with
  | none => exact .none
  | some alike =>
      rcases read.exists_entries here with ⟨_, _, _, readKeys, _⟩
      rcases readToo.exists_entries there with ⟨_, _, _, readKeysToo, _⟩
      have parts := AllAlike.of_entries alike
      have keys := parts.1.keyAlike readKeys readKeysToo
      exact .some ((forall₂_of_parts keys parts.2.forall₂).imp fun _ _ entry => ⟨entry.1, entry.2⟩)

theorem setItems (twins : moment.Twins left right) :
    Option.Rel (List.Forall₂ (KeyAlike moment.world.deferred moment.datumOf))
      left.setItems? right.setItems? := by
  have alike := twins.alike.setItems
  rcases twins.exists_datum with ⟨datum, read, readToo⟩
  generalize here : left.setItems? = items, there : right.setItems? = others at alike ⊢
  cases alike with
  | none => exact .none
  | some alike =>
      rcases read.exists_elements here with ⟨_, _, readItems, _⟩
      rcases readToo.exists_elements there with ⟨_, _, readItemsToo, _⟩
      exact .some (AllAlike.keyAlike (.of_forall₂ alike) readItems readItemsToo)

theorem contents (twins : moment.Twins left right) {contents : Contents}
    (has : left.contents? = some contents) : ∃ others, right.contents? = some others ∧
      ContentsAlike moment.world.deferred moment.datumOf contents others := by
  have entries := twins.mapEntries
  have items := twins.setItems
  cases twins.alike with
  | same => exact ⟨contents, has, .refl contents⟩
  | vector alike =>
      cases has
      exact ⟨_, rfl, .vector alike.forall₂⟩
  | arrayMap =>
      cases has
      cases entries with
      | some alike => exact ⟨_, rfl, .arrayMap alike⟩
  | hashMap hashes =>
      cases has
      cases entries with
      | some alike =>
          exact ⟨_, rfl, .hashMap (forall₂_of_parts (List.forall₂_eq_eq_eq ▸ hashes) alike)⟩
  | sortedMap =>
      cases has
      cases entries with
      | some alike => exact ⟨_, rfl, .sortedMap alike⟩
  | hashSet hashes =>
      cases has
      cases items with
      | some alike =>
          exact ⟨_, rfl, .hashSet (forall₂_of_parts (List.forall₂_eq_eq_eq ▸ hashes) alike)⟩
  | sortedSet =>
      cases has
      cases items with
      | some alike => exact ⟨_, rfl, .sortedSet alike⟩
  | string | symbol | list | cons | lazySeq => cases has

theorem addedEntries (twins : moment.Twins left right) :
    Option.Rel (List.Forall₂ (KeyedAlike moment.world.deferred moment.datumOf))
      left.addedEntries? right.addedEntries? := by
  have entries := twins.mapEntries
  rcases twins.exists_datum with ⟨datum, read, readToo⟩
  cases twins.alike with
  | same =>
      cases left.addedEntries? with
      | none => exact .none
      | some entries => exact .some (List.forall₂_same.mpr fun entry _ => .refl entry)
  | vector alike =>
      rcases read.exists_walk rfl with ⟨_, _, walk⟩
      rcases readToo.exists_walk rfl with ⟨_, _, walkToo⟩
      cases alike.keyAlike (walk.indexed rfl) (walkToo.indexed rfl) with
      | nil => exact .none
      | cons key rest =>
          cases rest with
          | nil => exact .none
          | cons value more =>
              cases more with
              | nil => exact .some (.cons ⟨key, value.alike⟩ .nil)
              | cons => exact .none
  | arrayMap | hashMap | sortedMap => exact entries
  | string | symbol | list | cons | lazySeq | hashSet | sortedSet => exact .none

end Moment.Twins

/-! ## Changes with twins -/

/-- The key or the item that the change is about. -/
def Change.subject? : Change → Option Value
  | assoc key _ | dissoc key => some key
  | conj item | disj item => some item
  | pop => none

/-- One change, made with twins. A value that goes to a key need not be readable. -/
inductive Moment.ChangeTwins (moment : Moment) : Change → Change → Prop
  | assoc {key other value otherValue : Value} (twins : moment.Twins key other)
      (alike : Alike moment.world.deferred value otherValue) :
      moment.ChangeTwins (.assoc key value) (.assoc other otherValue)
  | dissoc {key other : Value} (twins : moment.Twins key other) :
      moment.ChangeTwins (.dissoc key) (.dissoc other)
  | conj {item other : Value} (twins : moment.Twins item other) :
      moment.ChangeTwins (.conj item) (.conj other)
  | disj {item other : Value} (twins : moment.Twins item other) :
      moment.ChangeTwins (.disj item) (.disj other)
  | pop : moment.ChangeTwins .pop .pop

section

variable {moment : Moment} {change other : Change} {item : Value}

theorem Moment.ChangeTwins.alike (twins : moment.ChangeTwins change other) :
    ChangeAlike moment.world.deferred moment.datumOf change other := by
  cases twins with
  | assoc twins alike => exact .assoc twins.keyAlike alike
  | dissoc twins => exact .dissoc twins.keyAlike
  | conj twins => exact .conj twins.keyAlike twins.addedEntries
  | disj twins => exact .disj twins.keyAlike
  | pop => exact .pop

theorem Moment.WellFormed.addedEntries (known : moment.WellFormed item) :
    ∀ entry ∈ item.addedEntries?.getD [], moment.WellFormed entry.1 := by
  rcases known with ⟨datum, read⟩
  unfold Value.addedEntries?
  split
  · rcases read.exists_walk rfl with ⟨_, _, walk⟩
    have pair := (walk.indexed rfl).wellFormed
    exact List.forall_mem_singleton.mpr (pair _ (List.mem_cons_self ..))
  · cases contents : item.mapEntries? with
    | none => exact nofun
    | some entries =>
        rcases read.exists_entries contents with ⟨_, _, _, readKeys, _⟩
        exact List.forall_mem_map.mp readKeys.wellFormed

/-- What a change looks for can be read if the change is about something that can be read. -/
theorem Change.wellFormed_sought
    (known : ∀ value, change.subject? = some value → moment.WellFormed value) (shape : Shape) :
    ∀ key ∈ change.sought shape, moment.WellFormed key := by
  cases change with
  | assoc key | dissoc key =>
      cases shape with
      | map => exact List.forall_mem_singleton.mpr (known key rfl)
      | set | vector => exact nofun
  | conj item =>
      cases shape with
      | map => exact List.forall_mem_map.mpr (known item rfl).addedEntries
      | set => exact List.forall_mem_singleton.mpr (known item rfl)
      | vector => exact nofun
  | disj item =>
      cases shape with
      | set => exact List.forall_mem_singleton.mpr (known item rfl)
      | map | vector => exact nofun
  | pop => cases shape <;> exact nofun

theorem Moment.ChangeTwins.wellFormed (twins : moment.ChangeTwins change other) (shape : Shape) :
    (∀ key ∈ change.sought shape, moment.WellFormed key) ∧
      ∀ key ∈ other.sought shape, moment.WellFormed key := by
  have known : (∀ value, change.subject? = some value → moment.WellFormed value) ∧
      ∀ value, other.subject? = some value → moment.WellFormed value := by
    cases twins with
    | assoc twins | dissoc twins | conj twins | disj twins =>
        constructor
        · rintro _ ⟨⟩
          exact twins.left
        · rintro _ ⟨⟩
          exact twins.right
    | pop => exact ⟨nofun, nofun⟩
  exact ⟨Change.wellFormed_sought known.1 shape, Change.wellFormed_sought known.2 shape⟩

end

end LispRuntime
