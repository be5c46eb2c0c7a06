import LispRuntime.Proofs.Metadata.Alike
import LispRuntime.Proofs.Transient.Contents

/-! Contents that differ in nothing but metadata, also of the keys and elements in them. Keys are
known by what they stand for, so that a change finds the same ones in both and comes to contents
that are alike again. -/

namespace LispRuntime

open ArrayMap (Pairs)

/-! ## Tables -/

namespace Table

variable {ε : Type} {alike : ε → ε → Prop} {keyOf : ε → Datum} {new newToo : ε}
  {elements others : List ε}

theorem put_alike (same : ∀ element other, alike element other → keyOf element = keyOf other)
    (newAlike : alike new newToo) (all : List.Forall₂ alike elements others) :
    List.Forall₂ alike (put keyOf new elements) (put keyOf newToo others) := by
  induction all with
  | nil => exact .cons newAlike .nil
  | @cons element other _ _ first rest induction =>
      rw [put, put, same _ _ first, same _ _ newAlike]
      split
      · exact .cons newAlike rest
      · exact .cons first induction

theorem putInOrder_alike
    (same : ∀ element other, alike element other → keyOf element = keyOf other)
    (newAlike : alike new newToo) (all : List.Forall₂ alike elements others) :
    List.Forall₂ alike (putInOrder keyOf new elements) (putInOrder keyOf newToo others) := by
  induction all with
  | nil => exact .cons newAlike .nil
  | @cons element other _ _ first rest induction =>
      rw [putInOrder, putInOrder, same _ _ first, same _ _ newAlike]
      split
      · exact .cons newAlike rest
      · exact .cons newAlike (.cons first rest)
      · exact .cons first induction

theorem set_alike (newAlike : alike new newToo) (all : List.Forall₂ alike elements others)
    (place : Nat) : List.Forall₂ alike (elements.set place new) (others.set place newToo) := by
  induction all generalizing place with
  | nil => exact .nil
  | cons first rest induction =>
      cases place with
      | zero => exact .cons newAlike rest
      | succ place => exact .cons first (induction place)

theorem eraseP_alike {isOne isOneToo : ε → Bool} (all : List.Forall₂ alike elements others)
    (same : ∀ element other, alike element other → isOne element = isOneToo other) :
    List.Forall₂ alike (elements.eraseP isOne) (others.eraseP isOneToo) := by
  induction all with
  | nil => exact .nil
  | cons first rest induction =>
      rw [List.eraseP_cons, List.eraseP_cons, same _ _ first]
      cases isOneToo _ with
      | true => exact rest
      | false => exact .cons first induction

theorem drop_alike (same : ∀ element other, alike element other → keyOf element = keyOf other)
    {key other : Datum} (sameKey : key = other) (all : List.Forall₂ alike elements others) :
    List.Forall₂ alike (drop keyOf key elements) (drop keyOf other others) := by
  rw [sameKey]
  exact eraseP_alike all fun _ _ first => by rw [same _ _ first]

end Table

/-! ## Contents -/

section

variable (cells : Store Deferred) (datumOf : Value → Datum)

/-- Alike keys that are known as one. -/
structure KeyAlike (key other : Value) : Prop where
  alike : Alike cells key other
  same : datumOf key = datumOf other

structure KeyedAlike (entry other : Value × Value) : Prop where
  key : KeyAlike cells datumOf entry.1 other.1
  value : Alike cells entry.2 other.2

inductive ContentsAlike : Contents → Contents → Prop
  | arrayMap {pairs others : Pairs}
      (alike : List.Forall₂ (KeyedAlike cells datumOf) pairs others) :
      ContentsAlike (.arrayMap pairs) (.arrayMap others)
  | hashMap {entries others : List Value.HashedEntry}
      (alike : List.Forall₂ (fun entry other => entry.1 = other.1 ∧
        KeyedAlike cells datumOf entry.2 other.2) entries others) :
      ContentsAlike (.hashMap entries) (.hashMap others)
  | sortedMap {entries others : List (Value × Value)}
      (alike : List.Forall₂ (KeyedAlike cells datumOf) entries others) :
      ContentsAlike (.sortedMap entries) (.sortedMap others)
  | vector {items others : List Value} (alike : List.Forall₂ (Alike cells) items others) :
      ContentsAlike (.vector items) (.vector others)
  | hashSet {items others : List Value.HashedItem}
      (alike : List.Forall₂ (fun item other => item.1 = other.1 ∧
        KeyAlike cells datumOf item.2 other.2) items others) :
      ContentsAlike (.hashSet items) (.hashSet others)
  | sortedSet {items others : List Value}
      (alike : List.Forall₂ (KeyAlike cells datumOf) items others) :
      ContentsAlike (.sortedSet items) (.sortedSet others)

/-- One change, made with keys and values that are alike. -/
inductive ChangeAlike : Change → Change → Prop
  | assoc {key other value otherValue : Value} (keyAlike : KeyAlike cells datumOf key other)
      (valueAlike : Alike cells value otherValue) :
      ChangeAlike (.assoc key value) (.assoc other otherValue)
  | dissoc {key other : Value} (keyAlike : KeyAlike cells datumOf key other) :
      ChangeAlike (.dissoc key) (.dissoc other)
  | conj {item other : Value} (itemAlike : KeyAlike cells datumOf item other)
      (entries : Option.Rel (List.Forall₂ (KeyedAlike cells datumOf)) item.addedEntries?
        other.addedEntries?) : ChangeAlike (.conj item) (.conj other)
  | disj {item other : Value} (itemAlike : KeyAlike cells datumOf item other) :
      ChangeAlike (.disj item) (.disj other)
  | pop : ChangeAlike .pop .pop

end

section

variable {cells : Store Deferred} {datumOf : Value → Datum} {key other value otherValue : Value}

theorem KeyedAlike.refl (entry : Value × Value) : KeyedAlike cells datumOf entry entry :=
  ⟨⟨.same entry.1, rfl⟩, .same entry.2⟩

theorem ContentsAlike.refl (contents : Contents) :
    ContentsAlike cells datumOf contents contents := by
  cases contents with
  | arrayMap => exact .arrayMap (List.forall₂_same.mpr fun entry _ => .refl entry)
  | hashMap => exact .hashMap (List.forall₂_same.mpr fun entry _ => ⟨rfl, .refl entry.2⟩)
  | sortedMap => exact .sortedMap (List.forall₂_same.mpr fun entry _ => .refl entry)
  | vector => exact .vector (List.forall₂_same.mpr fun item _ => .same item)
  | hashSet => exact .hashSet (List.forall₂_same.mpr fun item _ => ⟨rfl, .same item.2, rfl⟩)
  | sortedSet => exact .sortedSet (List.forall₂_same.mpr fun item _ => ⟨.same item, rfl⟩)

theorem AllAlike.of_keyAlike {keys others : List Value}
    (alike : List.Forall₂ (KeyAlike cells datumOf) keys others) : AllAlike cells keys others :=
  .of_forall₂ (alike.imp fun _ _ => KeyAlike.alike)

theorem AllAlike.of_keyedAlike {entries others : List (Value × Value)}
    (alike : List.Forall₂ (KeyedAlike cells datumOf) entries others) :
    AllAlike cells (entries.map Prod.fst) (others.map Prod.fst) ∧
      AllAlike cells (entries.map Prod.snd) (others.map Prod.snd) :=
  AllAlike.of_entries (alike.imp fun _ _ entry => ⟨entry.key.alike, entry.value⟩)

/-- Collections whose contents are alike are alike, whatever metadata they carry. -/
theorem ContentsAlike.alike {contents otherContents : Contents}
    (alike : ContentsAlike cells datumOf contents otherContents)
    (has : value.contents? = some contents)
    (hasToo : otherValue.contents? = some otherContents) : Alike cells value otherValue := by
  cases alike with
  | arrayMap alike =>
      cases value <;> cases has
      cases otherValue <;> cases hasToo
      have parts := AllAlike.of_keyedAlike alike
      exact .arrayMap parts.1 parts.2
  | sortedMap alike =>
      cases value <;> cases has
      cases otherValue <;> cases hasToo
      have parts := AllAlike.of_keyedAlike alike
      exact .sortedMap parts.1 parts.2
  | hashMap alike =>
      cases value <;> cases has
      cases otherValue <;> cases hasToo
      have hashes := List.rel_map (fun _ _ entry => entry.1) alike
      have parts := AllAlike.of_keyedAlike (List.rel_map (fun _ _ entry => entry.2) alike)
      exact .hashMap (List.forall₂_eq_eq_eq ▸ hashes) parts.1 parts.2
  | vector alike =>
      cases value <;> cases has
      cases otherValue <;> cases hasToo
      exact .vector (.of_forall₂ alike)
  | hashSet alike =>
      cases value <;> cases has
      cases otherValue <;> cases hasToo
      have hashes := List.rel_map (fun _ _ item => item.1) alike
      have items := List.rel_map (fun _ _ item => item.2) alike
      exact .hashSet (List.forall₂_eq_eq_eq ▸ hashes) (.of_keyAlike items)
  | sortedSet alike =>
      cases value <;> cases has
      cases otherValue <;> cases hasToo
      exact .sortedSet (.of_keyAlike alike)

/-! ### Pairs -/

namespace ArrayMap.Pairs

variable {pairs others : Pairs}

theorem isSameKey_alike (keyAlike : KeyAlike cells datumOf key other)
    {entry otherEntry : Value × Value} (alike : KeyedAlike cells datumOf entry otherEntry) :
    Contents.isSameKey datumOf key entry.1 = Contents.isSameKey datumOf other otherEntry.1 := by
  rw [Contents.isSameKey, Contents.isSameKey, keyAlike.same, alike.key.same]

theorem has_alike (keyAlike : KeyAlike cells datumOf key other)
    (alike : List.Forall₂ (KeyedAlike cells datumOf) pairs others) :
    pairs.has (Contents.isSameKey datumOf) key = others.has (Contents.isSameKey datumOf) other := by
  induction alike with
  | nil => rfl
  | cons first _ induction =>
      rw [has, has, List.any_cons, List.any_cons, isSameKey_alike keyAlike first]
      exact congrArg _ induction

theorem replace_alike (keyAlike : KeyAlike cells datumOf key other)
    (valueAlike : Alike cells value otherValue)
    (alike : List.Forall₂ (KeyedAlike cells datumOf) pairs others) :
    List.Forall₂ (KeyedAlike cells datumOf)
      (pairs.replace (Contents.isSameKey datumOf) key value)
      (others.replace (Contents.isSameKey datumOf) other otherValue) := by
  induction alike with
  | nil => exact .nil
  | cons first rest induction =>
      rw [replace, replace, isSameKey_alike keyAlike first]
      split
      · exact .cons ⟨first.key, valueAlike⟩ rest
      · exact .cons first induction

end ArrayMap.Pairs

namespace Contents

variable {pairs otherPairs : Pairs} {contents otherContents : Contents}

theorem putHashed_alike {entries others : List Value.HashedEntry}
    (keyAlike : KeyAlike cells datumOf key other) (valueAlike : Alike cells value otherValue)
    (alike : List.Forall₂ (fun entry other => entry.1 = other.1 ∧
      KeyedAlike cells datumOf entry.2 other.2) entries others) :
    List.Forall₂ (fun entry other => entry.1 = other.1 ∧
        KeyedAlike cells datumOf entry.2 other.2)
      (putHashed datumOf entries key value) (putHashed datumOf others other otherValue) :=
  Table.put_alike (fun _ _ alike => alike.2.key.same)
    ⟨congrArg Datum.hash keyAlike.same, keyAlike, valueAlike⟩ alike

theorem promoted_alike (alike : List.Forall₂ (KeyedAlike cells datumOf) pairs otherPairs) :
    List.Forall₂ (fun entry other => entry.1 = other.1 ∧
        KeyedAlike cells datumOf entry.2 other.2)
      (promoted datumOf pairs) (promoted datumOf otherPairs) :=
  List.rel_foldl (fun _ _ sofar _ _ entry => putHashed_alike entry.key entry.value sofar)
    .nil alike

theorem assocPairs_alike (keyAlike : KeyAlike cells datumOf key other)
    (valueAlike : Alike cells value otherValue)
    (alike : List.Forall₂ (KeyedAlike cells datumOf) pairs otherPairs) :
    ContentsAlike cells datumOf (assocPairs datumOf pairs key value)
      (assocPairs datumOf otherPairs other otherValue) := by
  unfold assocPairs Pairs.put Pairs.add
  rw [← ArrayMap.Pairs.has_alike keyAlike alike, ← alike.length_eq]
  by_cases has : pairs.has (isSameKey datumOf) key = true
  · rw [if_pos has, if_pos has]
    exact .arrayMap (ArrayMap.Pairs.replace_alike keyAlike valueAlike alike)
  rw [if_neg has, if_neg has]
  by_cases room : pairs.length < ArrayMap.maxPairs
  · rw [if_pos room, if_pos room]
    exact .arrayMap (List.rel_append alike (.cons ⟨keyAlike, valueAlike⟩ .nil))
  · rw [if_neg room, if_neg room]
    exact .hashMap (putHashed_alike keyAlike valueAlike (promoted_alike alike))

/-! ### Changes -/

theorem placeOf?_alike (keyAlike : Alike cells key other) (length : Nat) :
    placeOf? key length = placeOf? other length := by
  cases keyAlike <;> rfl

theorem setOrPush_alike {items others : List Value} (valueAlike : Alike cells value otherValue)
    (alike : List.Forall₂ (Alike cells) items others) (place : Nat) :
    List.Forall₂ (Alike cells) (Value.setOrPush items place value)
      (Value.setOrPush others place otherValue) := by
  unfold Value.setOrPush
  rw [← alike.length_eq]
  split
  · exact List.rel_append alike (.cons valueAlike .nil)
  · exact Table.set_alike valueAlike alike place

theorem assoc_alike (alike : ContentsAlike cells datumOf contents otherContents)
    (keyAlike : KeyAlike cells datumOf key other) (valueAlike : Alike cells value otherValue) :
    Option.Rel (ContentsAlike cells datumOf) (contents.assoc datumOf key value)
      (otherContents.assoc datumOf other otherValue) := by
  cases alike with
  | arrayMap alike => exact .some (assocPairs_alike keyAlike valueAlike alike)
  | hashMap alike => exact .some (.hashMap (putHashed_alike keyAlike valueAlike alike))
  | sortedMap alike =>
      exact .some (.sortedMap (Table.putInOrder_alike (fun _ _ alike => alike.key.same)
        ⟨keyAlike, valueAlike⟩ alike))
  | @vector items _ alike =>
      rw [assoc, assoc, ← placeOf?_alike keyAlike.alike, ← alike.length_eq]
      cases placeOf? key items.length with
      | none => exact .none
      | some place => exact .some (.vector (setOrPush_alike valueAlike alike place))
  | hashSet | sortedSet => exact .none

theorem assocAll_alike {entries others : List (Value × Value)}
    (alike : ContentsAlike cells datumOf contents otherContents)
    (all : List.Forall₂ (KeyedAlike cells datumOf) entries others) :
    Option.Rel (ContentsAlike cells datumOf) (contents.assocAll datumOf entries)
      (otherContents.assocAll datumOf others) := by
  induction all generalizing contents otherContents with
  | nil => exact .some alike
  | @cons entry other _ _ first _ induction =>
      rw [assocAll_cons, assocAll_cons]
      have changed := assoc_alike alike first.key first.value
      generalize contents.assoc datumOf entry.1 entry.2 = made,
        otherContents.assoc datumOf other.1 other.2 = otherMade at changed ⊢
      cases changed with
      | none => exact .none
      | some alike => exact induction alike

theorem conj_map_alike {item otherItem : Value}
    (alike : ContentsAlike cells datumOf contents otherContents)
    (entries : Option.Rel (List.Forall₂ (KeyedAlike cells datumOf)) item.addedEntries?
      otherItem.addedEntries?) :
    Option.Rel (ContentsAlike cells datumOf)
      (item.addedEntries?.bind fun entries => contents.assocAll datumOf entries)
      (otherItem.addedEntries?.bind fun entries => otherContents.assocAll datumOf entries) := by
  generalize item.addedEntries? = added, otherItem.addedEntries? = otherAdded at entries ⊢
  cases entries with
  | none => exact .none
  | some all => exact assocAll_alike alike all

theorem change_alike (alike : ContentsAlike cells datumOf contents otherContents)
    {change otherChange : Change} (changes : ChangeAlike cells datumOf change otherChange) :
    Option.Rel (ContentsAlike cells datumOf) (contents.change datumOf change)
      (otherContents.change datumOf otherChange) := by
  cases changes with
  | assoc keyAlike valueAlike => exact assoc_alike alike keyAlike valueAlike
  | dissoc keyAlike =>
      cases alike with
      | arrayMap alike =>
          exact .some (.arrayMap
            (Table.eraseP_alike alike fun _ _ => Pairs.isSameKey_alike keyAlike))
      | hashMap alike =>
          exact .some (.hashMap
            (Table.drop_alike (fun _ _ entry => entry.2.key.same) keyAlike.same alike))
      | sortedMap alike =>
          exact .some (.sortedMap
            (Table.drop_alike (fun _ _ entry => entry.key.same) keyAlike.same alike))
      | vector | hashSet | sortedSet => exact .none
  | conj itemAlike entries =>
      cases alike with
      | arrayMap alike => exact conj_map_alike (.arrayMap alike) entries
      | hashMap alike => exact conj_map_alike (.hashMap alike) entries
      | sortedMap alike => exact conj_map_alike (.sortedMap alike) entries
      | vector alike =>
          exact .some (.vector (List.rel_append alike (.cons itemAlike.alike .nil)))
      | hashSet alike =>
          exact .some (.hashSet (Table.put_alike (fun _ _ alike => alike.2.same)
            ⟨congrArg Datum.hash itemAlike.same, itemAlike⟩ alike))
      | sortedSet alike =>
          exact .some (.sortedSet (Table.putInOrder_alike (fun _ _ alike => alike.same)
            itemAlike alike))
  | disj itemAlike =>
      cases alike with
      | hashSet alike =>
          exact .some (.hashSet
            (Table.drop_alike (fun _ _ item => item.2.same) itemAlike.same alike))
      | sortedSet alike =>
          exact .some (.sortedSet
            (Table.drop_alike (fun _ _ item => item.same) itemAlike.same alike))
      | arrayMap | hashMap | sortedMap | vector => exact .none
  | pop =>
      cases alike with
      | @vector items others alike =>
          rw [change, change, pop, pop]
          cases alike with
          | nil => exact .none
          | cons first rest =>
              refine .some (.vector ?_)
              rw [List.dropLast_eq_take, List.dropLast_eq_take, ← (rest.cons first).length_eq]
              exact List.forall₂_take _ (rest.cons first)
      | arrayMap | hashMap | sortedMap | hashSet | sortedSet => exact .none

end Contents

end

end LispRuntime
