import LispRuntime.Proofs.Value.Laws
import LispRuntime.Proofs.World.InStep

/-! Values that differ in nothing but metadata. A value and a copy of it from which all metadata
has been removed, from the value itself and from everything inside it, are alike: they carry the
same tags, hold the same payload in the same order and remember the same hashes. What is known by
its identity alone is like itself only.

Alike values that can be read stand for one datum, since metadata is not part of it. -/

namespace LispRuntime

mutual
/-- The same but for metadata, and for where it is kept. What lazy seqs have been realized as is
told by their cells. -/
inductive Alike (cells : Store Deferred) : Value → Value → Prop
  | same (value : Value) : Alike cells value value
  | string {address other : Nat} {text : String} :
      Alike cells (.string address text) (.string other text)
  | symbol {name : Symbol} {metadata otherMetadata : Option Value} :
      Alike cells (.symbol name metadata) (.symbol name otherMetadata)
  | list {address other : Nat} {items others : List Value} {metadata otherMetadata : Option Value}
      (alike : AllAlike cells items others) :
      Alike cells (.list address items metadata) (.list other others otherMetadata)
  | vector {address other : Nat} {items others : List Value}
      {metadata otherMetadata : Option Value} (alike : AllAlike cells items others) :
      Alike cells (.vector address items metadata) (.vector other others otherMetadata)
  | cons {address other : Nat} {first otherFirst rest otherRest : Value}
      (firstAlike : Alike cells first otherFirst) (restAlike : Alike cells rest otherRest) :
      Alike cells (.cons address first rest) (.cons other otherFirst otherRest)
  | lazySeq {cell other : Ref .deferred} {seq otherSeq : Value}
      (realized : cells.get? cell.index = some (.realized seq))
      (otherRealized : cells.get? other.index = some (.realized otherSeq))
      (alike : Alike cells seq otherSeq) : Alike cells (.lazySeq cell) (.lazySeq other)
  | arrayMap {handle other : Nat} {entries others : List (Value × Value)}
      {metadata otherMetadata : Option Value}
      (keys : AllAlike cells (entries.map Prod.fst) (others.map Prod.fst))
      (values : AllAlike cells (entries.map Prod.snd) (others.map Prod.snd)) :
      Alike cells (.arrayMap handle entries metadata) (.arrayMap other others otherMetadata)
  | hashMap {address other : Nat} {entries others : List Value.HashedEntry}
      {metadata otherMetadata : Option Value}
      (hashes : entries.map Prod.fst = others.map Prod.fst)
      (keys : AllAlike cells ((entries.map Prod.snd).map Prod.fst)
        ((others.map Prod.snd).map Prod.fst))
      (values : AllAlike cells ((entries.map Prod.snd).map Prod.snd)
        ((others.map Prod.snd).map Prod.snd)) :
      Alike cells (.hashMap address entries metadata) (.hashMap other others otherMetadata)
  | sortedMap {address other : Nat} {entries others : List (Value × Value)}
      {metadata otherMetadata : Option Value}
      (keys : AllAlike cells (entries.map Prod.fst) (others.map Prod.fst))
      (values : AllAlike cells (entries.map Prod.snd) (others.map Prod.snd)) :
      Alike cells (.sortedMap address entries metadata) (.sortedMap other others otherMetadata)
  | hashSet {address other : Nat} {items others : List Value.HashedItem}
      {metadata otherMetadata : Option Value}
      (hashes : items.map Prod.fst = others.map Prod.fst)
      (alike : AllAlike cells (items.map Prod.snd) (others.map Prod.snd)) :
      Alike cells (.hashSet address items metadata) (.hashSet other others otherMetadata)
  | sortedSet {address other : Nat} {items others : List Value}
      {metadata otherMetadata : Option Value} (alike : AllAlike cells items others) :
      Alike cells (.sortedSet address items metadata) (.sortedSet other others otherMetadata)

inductive AllAlike (cells : Store Deferred) : List Value → List Value → Prop
  | nil : AllAlike cells [] []
  | cons {value other : Value} {values others : List Value} (first : Alike cells value other)
      (rest : AllAlike cells values others) :
      AllAlike cells (value :: values) (other :: others)
end

namespace AllAlike

variable {cells : Store Deferred} {values others : List Value}

theorem forall₂ (alike : AllAlike cells values others) :
    List.Forall₂ (Alike cells) values others := by
  induction values generalizing others with
  | nil =>
      cases alike
      exact .nil
  | cons value rest induction =>
      cases alike with
      | cons first alikeRest => exact .cons first (induction alikeRest)

theorem of_forall₂ (alike : List.Forall₂ (Alike cells) values others) :
    AllAlike cells values others := by
  induction alike with
  | nil => exact .nil
  | cons first _ induction => exact .cons first induction

theorem refl (cells : Store Deferred) (values : List Value) : AllAlike cells values values :=
  of_forall₂ (List.forall₂_same.mpr fun value _ => .same value)

theorem tail (alike : AllAlike cells values others) : AllAlike cells values.tail others.tail := by
  cases alike with
  | nil => exact .nil
  | cons _ rest => exact rest

theorem getElem? (alike : AllAlike cells values others) (index : Nat) :
    Option.Rel (Alike cells) values[index]? others[index]? := by
  induction values generalizing others index with
  | nil =>
      cases alike
      exact .none
  | cons value rest induction =>
      cases alike with
      | cons first alikeRest =>
          cases index with
          | zero => exact .some first
          | succ index => exact induction alikeRest index

theorem getLast (alike : AllAlike cells values others) :
    Alike cells (values.getLast?.getD .nil) (others.getLast?.getD .nil) := by
  rw [List.getLast?_eq_getElem?, List.getLast?_eq_getElem?, ← alike.forall₂.length_eq]
  have last := alike.getElem? (values.length - 1)
  generalize values[values.length - 1]? = found, others[values.length - 1]? = otherFound at last ⊢
  cases last with
  | none => exact .same .nil
  | some alike => exact alike

end AllAlike

/-- Entries whose keys and values are alike. -/
def EntriesAlike (cells : Store Deferred) (entry other : Value × Value) : Prop :=
  Alike cells entry.1 other.1 ∧ Alike cells entry.2 other.2

/-- Pairs are related as their parts are. -/
theorem forall₂_of_parts {α β : Type} {first : α → α → Prop} {second : β → β → Prop}
    {pairs others : List (α × β)}
    (firsts : List.Forall₂ first (pairs.map Prod.fst) (others.map Prod.fst))
    (seconds : List.Forall₂ second (pairs.map Prod.snd) (others.map Prod.snd)) :
    List.Forall₂ (fun pair other => first pair.1 other.1 ∧ second pair.2 other.2) pairs others := by
  induction pairs generalizing others with
  | nil =>
      cases others with
      | nil => exact .nil
      | cons => cases firsts
  | cons pair rest induction =>
      cases others with
      | nil => cases firsts
      | cons other otherRest =>
          cases firsts with
          | cons here firsts =>
              cases seconds with
              | cons there seconds => exact .cons ⟨here, there⟩ (induction firsts seconds)

theorem AllAlike.entries {cells : Store Deferred} {entries others : List (Value × Value)}
    (keys : AllAlike cells (entries.map Prod.fst) (others.map Prod.fst))
    (values : AllAlike cells (entries.map Prod.snd) (others.map Prod.snd)) :
    List.Forall₂ (EntriesAlike cells) entries others :=
  forall₂_of_parts keys.forall₂ values.forall₂

theorem AllAlike.of_entries {cells : Store Deferred} {entries others : List (Value × Value)}
    (alike : List.Forall₂ (EntriesAlike cells) entries others) :
    AllAlike cells (entries.map Prod.fst) (others.map Prod.fst) ∧
      AllAlike cells (entries.map Prod.snd) (others.map Prod.snd) :=
  ⟨.of_forall₂ (List.rel_map (fun _ _ entry => entry.1) alike),
    .of_forall₂ (List.rel_map (fun _ _ entry => entry.2) alike)⟩

/-! ## What alike values have in common -/

namespace Alike

variable {cells : Store Deferred} {left right : Value}

theorem typeName_eq (alike : Alike cells left right) : left.typeName = right.typeName := by
  cases alike <;> rfl

theorem isMap_eq (alike : Alike cells left right) : left.isMap = right.isMap := by
  cases alike <;> rfl

theorem isSet_eq (alike : Alike cells left right) : left.isSet = right.isSet := by
  cases alike <;> rfl

theorem mapEntries (alike : Alike cells left right) :
    Option.Rel (List.Forall₂ (EntriesAlike cells)) left.mapEntries? right.mapEntries? := by
  cases alike with
  | same =>
      cases left.mapEntries? with
      | none => exact .none
      | some entries =>
          exact .some (List.forall₂_same.mpr fun entry _ => ⟨.same _, .same _⟩)
  | arrayMap keys values | hashMap _ keys values | sortedMap keys values =>
      exact .some (AllAlike.entries keys values)
  | string | symbol | list | vector | cons | lazySeq | hashSet | sortedSet => exact .none

theorem setItems (alike : Alike cells left right) :
    Option.Rel (List.Forall₂ (Alike cells)) left.setItems? right.setItems? := by
  cases alike with
  | same =>
      cases left.setItems? with
      | none => exact .none
      | some items => exact .some (List.forall₂_same.mpr fun item _ => .same item)
  | hashSet _ alike | sortedSet alike => exact .some alike.forall₂
  | string | symbol | list | vector | cons | lazySeq | arrayMap | hashMap | sortedMap =>
      exact .none

end Alike

/-! ## Later -/

mutual
theorem Alike.later {cells : Store Deferred} {world : World} (recalls : world.Recalls cells)
    {left right : Value} : Alike cells left right → Alike world.deferred left right
  | .same value => .same value
  | .string => .string
  | .symbol => .symbol
  | .list alike => .list (alike.later recalls)
  | .vector alike => .vector (alike.later recalls)
  | .cons firstAlike restAlike => .cons (firstAlike.later recalls) (restAlike.later recalls)
  | .lazySeq realized otherRealized alike =>
      .lazySeq (recalls _ _ realized) (recalls _ _ otherRealized) (alike.later recalls)
  | .arrayMap keys values => .arrayMap (keys.later recalls) (values.later recalls)
  | .hashMap hashes keys values =>
      .hashMap hashes (keys.later recalls) (values.later recalls)
  | .sortedMap keys values => .sortedMap (keys.later recalls) (values.later recalls)
  | .hashSet hashes alike => .hashSet hashes (alike.later recalls)
  | .sortedSet alike => .sortedSet (alike.later recalls)

theorem AllAlike.later {cells : Store Deferred} {world : World} (recalls : world.Recalls cells)
    {values others : List Value} : AllAlike cells values others →
      AllAlike world.deferred values others
  | .nil => .nil
  | .cons first rest => .cons (first.later recalls) (rest.later recalls)
end

/-! ## One datum -/

section

variable {memory : Memory} {world : World} {value : Value} {datum : Datum}

theorem Reads.exists_walk (read : Reads memory world value datum)
    (kind : value.isSequential = true) :
    ∃ items, datum = .sequence items ∧ Walks memory world value items := by
  cases read with
  | leaf known => cases value <;> first | (cases kind; done) | cases known
  | sequence _ walk => exact ⟨_, rfl, walk⟩
  | map contents | set contents =>
      cases value <;> first | (cases kind; done) | cases contents

theorem Reads.exists_entries (read : Reads memory world value datum)
    {entries : List (Value × Value)} (contents : value.mapEntries? = some entries) :
    ∃ keys values, datum = .map (Datum.arrange (List.zipWith Datum.entry keys values)) ∧
      ReadsAll memory world (entries.map Prod.fst) keys ∧
      ReadsAll memory world (entries.map Prod.snd) values ∧ value.IsLawful world keys := by
  cases read with
  | leaf known => cases value <;> first | (cases contents; done) | cases known
  | sequence kind => cases value <;> first | (cases contents; done) | cases kind
  | map found readKeys readValues lawful =>
      cases contents.symm.trans found
      exact ⟨_, _, rfl, readKeys, readValues, lawful⟩
  | set found => cases value <;> first | (cases contents; done) | cases found

theorem Reads.exists_elements (read : Reads memory world value datum) {elements : List Value}
    (contents : value.setItems? = some elements) :
    ∃ items, datum = .set (Datum.arrange items) ∧ ReadsAll memory world elements items ∧
      value.IsLawful world items := by
  cases read with
  | leaf known => cases value <;> first | (cases contents; done) | cases known
  | sequence kind => cases value <;> first | (cases contents; done) | cases kind
  | map found => cases value <;> first | (cases contents; done) | cases found
  | set found readItems lawful =>
      cases contents.symm.trans found
      exact ⟨_, rfl, readItems, lawful⟩

theorem Walks.exists_entries {items : List Datum} (walk : Walks memory world value items)
    {entries : List (Value × Value)} (contents : value.mapEntries? = some entries) :
    ∃ keys values, items = List.zipWith Datum.entry keys values ∧
      ReadsAll memory world (entries.map Prod.fst) keys ∧
      ReadsAll memory world (entries.map Prod.snd) values := by
  cases walk with
  | nil | string | list | vector | cons | lazySeq => cases contents
  | map found readKeys readValues =>
      cases contents.symm.trans found
      exact ⟨_, _, rfl, readKeys, readValues⟩
  | set found => cases value <;> first | (cases contents; done) | cases found

theorem Walks.exists_elements {items : List Datum} (walk : Walks memory world value items)
    {elements : List Value} (contents : value.setItems? = some elements) :
    ReadsAll memory world elements items := by
  cases walk with
  | nil | string | list | vector | cons | lazySeq => cases contents
  | map found => cases value <;> first | (cases contents; done) | cases found
  | set found read =>
      cases contents.symm.trans found
      exact read

theorem Walks.of_cons {address : Nat} {first rest : Value} {items : List Datum}
    (walk : Walks memory world (.cons address first rest) items) :
    ∃ datum others, items = datum :: others ∧ Reads memory world first datum ∧
      Walks memory world rest others := by
  cases walk with
  | cons read walk => exact ⟨_, _, rfl, read, walk⟩
  | map contents | set contents => cases contents

theorem Walks.of_realized {cell : Ref .deferred} {seq : Value} {items : List Datum}
    (walk : Walks memory world (.lazySeq cell) items)
    (realized : world.deferred.get? cell.index = some (.realized seq)) :
    Walks memory world seq items := by
  cases walk with
  | lazySeq here _ walk =>
      cases realized.symm.trans here
      exact walk
  | map contents | set contents => cases contents

theorem ReadsAll.tail {values : List Value} {data : List Datum}
    (read : ReadsAll memory world values data) : ReadsAll memory world values.tail data.tail := by
  cases read with
  | nil => exact .nil
  | cons _ rest => exact rest

theorem ReadsAll.unique {values : List Value} {data others : List Datum}
    (read : ReadsAll memory world values data) (again : ReadsAll memory world values others) :
    data = others := by
  induction values generalizing data others with
  | nil =>
      cases read
      cases again
      rfl
  | cons value rest induction =>
      cases read with
      | cons first readRest =>
          cases again with
          | cons firstAgain readAgain =>
              rw [first.eq_of_identical firstAgain value.identical_self,
                induction readRest readAgain]

theorem Walks.unique {value : Value} {items others : List Datum} :
    Walks memory world value items → Walks memory world value others → items = others
  | .nil, again => by
      cases again with
      | nil => rfl
      | map contents | set contents => cases contents
  | .string, again => by
      cases again with
      | string => rfl
      | map contents | set contents => cases contents
  | .list read, again | .vector read, again => read.unique (again.indexed rfl)
  | .cons read walk, again => by
      rcases again.of_cons with ⟨_, _, rfl, readAgain, walkAgain⟩
      rw [read.eq_of_identical readAgain (Value.identical_self _), walk.unique walkAgain]
  | .map contents readKeys readValues, again => by
      rcases again.exists_entries contents with ⟨keys, values, rfl, keysAgain, valuesAgain⟩
      rw [readKeys.unique keysAgain, readValues.unique valuesAgain]
  | .set contents read, again => read.unique (again.exists_elements contents)
  | .lazySeq realized _ walk, again => walk.unique (again.of_realized realized)

end

section

variable {memory : Memory} {world : World}

mutual
theorem Alike.datum_eq {left right : Value} {datum other : Datum} :
    Alike world.deferred left right → Reads memory world left datum →
      Reads memory world right other → datum = other
  | .same value, readLeft, readRight => readLeft.eq_of_identical readRight value.identical_self
  | .string, readLeft, readRight => (readLeft.eq_leaf rfl).trans (readRight.eq_leaf rfl).symm
  | .symbol, readLeft, readRight => (readLeft.eq_leaf rfl).trans (readRight.eq_leaf rfl).symm
  | .list alike, readLeft, readRight => by
      rcases readLeft.exists_walk rfl with ⟨items, rfl, walkLeft⟩
      rcases readRight.exists_walk rfl with ⟨others, rfl, walkRight⟩
      rw [alike.data_eq (walkLeft.indexed rfl) (walkRight.indexed rfl)]
  | .vector alike, readLeft, readRight => by
      rcases readLeft.exists_walk rfl with ⟨items, rfl, walkLeft⟩
      rcases readRight.exists_walk rfl with ⟨others, rfl, walkRight⟩
      rw [alike.data_eq (walkLeft.indexed rfl) (walkRight.indexed rfl)]
  | .cons firstAlike restAlike, readLeft, readRight => by
      rcases readLeft.exists_walk rfl with ⟨_, rfl, walkLeft⟩
      rcases readRight.exists_walk rfl with ⟨_, rfl, walkRight⟩
      rcases walkLeft.of_cons with ⟨_, _, rfl, firstLeft, restLeft⟩
      rcases walkRight.of_cons with ⟨_, _, rfl, firstRight, restRight⟩
      rw [firstAlike.datum_eq firstLeft firstRight, restAlike.items_eq restLeft restRight]
  | .lazySeq realized otherRealized alike, readLeft, readRight => by
      rcases readLeft.exists_walk rfl with ⟨_, rfl, walkLeft⟩
      rcases readRight.exists_walk rfl with ⟨_, rfl, walkRight⟩
      rw [alike.items_eq (walkLeft.of_realized realized) (walkRight.of_realized otherRealized)]
  | .arrayMap keys values, readLeft, readRight
  | .sortedMap keys values, readLeft, readRight
  | .hashMap _ keys values, readLeft, readRight => by
      rcases readLeft.exists_entries rfl with ⟨_, _, rfl, leftKeys, leftValues, _⟩
      rcases readRight.exists_entries rfl with ⟨_, _, rfl, rightKeys, rightValues, _⟩
      rw [keys.data_eq leftKeys rightKeys, values.data_eq leftValues rightValues]
  | .hashSet _ alike, readLeft, readRight
  | .sortedSet alike, readLeft, readRight => by
      rcases readLeft.exists_elements rfl with ⟨_, rfl, leftItems, _⟩
      rcases readRight.exists_elements rfl with ⟨_, rfl, rightItems, _⟩
      rw [alike.data_eq leftItems rightItems]

theorem AllAlike.data_eq {values others : List Value} {data otherData : List Datum} :
    AllAlike world.deferred values others → ReadsAll memory world values data →
      ReadsAll memory world others otherData → data = otherData
  | .nil, .nil, .nil => rfl
  | .cons first rest, .cons firstLeft restLeft, .cons firstRight restRight => by
      rw [first.datum_eq firstLeft firstRight, rest.data_eq restLeft restRight]

theorem Alike.items_eq {left right : Value} {items others : List Datum} :
    Alike world.deferred left right → Walks memory world left items →
      Walks memory world right others → items = others
  | .same _, walkLeft, walkRight => walkLeft.unique walkRight
  | .string, .string, .string => rfl
  | .list alike, walkLeft, walkRight =>
      alike.data_eq (walkLeft.indexed rfl) (walkRight.indexed rfl)
  | .vector alike, walkLeft, walkRight =>
      alike.data_eq (walkLeft.indexed rfl) (walkRight.indexed rfl)
  | .cons firstAlike restAlike, walkLeft, walkRight => by
      rcases walkLeft.of_cons with ⟨_, _, rfl, firstLeft, restLeft⟩
      rcases walkRight.of_cons with ⟨_, _, rfl, firstRight, restRight⟩
      rw [firstAlike.datum_eq firstLeft firstRight, restAlike.items_eq restLeft restRight]
  | .lazySeq realized otherRealized alike, walkLeft, walkRight =>
      alike.items_eq (walkLeft.of_realized realized) (walkRight.of_realized otherRealized)
  | .arrayMap keys values, walkLeft, walkRight
  | .sortedMap keys values, walkLeft, walkRight
  | .hashMap _ keys values, walkLeft, walkRight => by
      rcases walkLeft.exists_entries rfl with ⟨_, _, rfl, leftKeys, leftValues⟩
      rcases walkRight.exists_entries rfl with ⟨_, _, rfl, rightKeys, rightValues⟩
      rw [keys.data_eq leftKeys rightKeys, values.data_eq leftValues rightValues]
  | .hashSet _ alike, walkLeft, walkRight
  | .sortedSet alike, walkLeft, walkRight =>
      alike.data_eq (walkLeft.exists_elements rfl) (walkRight.exists_elements rfl)
end

end

/-- Both values can be read, and they differ in nothing but metadata. -/
structure Moment.Twins (moment : Moment) (left right : Value) : Prop where
  alike : Alike moment.world.deferred left right
  left : moment.WellFormed left
  right : moment.WellFormed right

namespace Moment

variable {moment before after : Moment} {left right : Value}

theorem recalls_later (le : before ≤ after) : after.world.Recalls before.world.deferred :=
  le.realized

namespace Twins

theorem exists_datum (twins : moment.Twins left right) :
    ∃ datum, moment.Reads left datum ∧ moment.Reads right datum := by
  rcases twins with ⟨alike, ⟨datum, readLeft⟩, ⟨other, readRight⟩⟩
  cases alike.datum_eq readLeft readRight
  exact ⟨datum, readLeft, readRight⟩

theorem later (twins : before.Twins left right) (le : before ≤ after) :
    after.Twins left right where
  alike := twins.alike.later (recalls_later le)
  left := twins.left.imp fun _ => reads_later le
  right := twins.right.imp fun _ => reads_later le

end Twins

end Moment

end LispRuntime
