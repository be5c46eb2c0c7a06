import LispRuntime.Proofs.Value.Equality

/-! A hash map is equal to every map that has the same entries, even if there are sequences in them
that fail: what is put in is found again because it is identical to itself. -/

namespace LispRuntime.Outlook

open Value (hashedKey hashMap equalMaps equalWithin)

variable {machine : Machine} {σ : Type} [Preorder σ] {outlook : Outlook machine σ} {point : σ}
  {bound : Nat} {equal : Value → Value → Run Bool}

/-- What the test takes for the sought key is found, unless something before it is. -/
theorem findHashed_isSome {ε : Type} {keyOf : ε → UInt32 × Value} {hash : UInt32} {sought : Value}
    {table : List ε} {element : ε} (member : element ∈ table) (stored : (keyOf element).1 = hash)
    (found : ∀ between, point ≤ between →
      outlook.Ends between (equal sought (keyOf element).2) fun answer _ => answer = true)
    (others : ∀ between, point ≤ between → ∀ other ∈ table,
      outlook.Ends between (equal sought (keyOf other).2) fun _ _ => True) :
    outlook.Ends point (HashTable.find? keyOf equal hash sought table) fun found _ =>
      found.isSome = true := by
  induction table generalizing point with
  | nil => cases member
  | cons first rest induction =>
      by_cases here : element = first
      case pos =>
        subst here
        simp only [HashTable.find?, stored, beq_self_eq_true, if_true]
        apply (found point (le_refl _)).bind
        rintro _ _ _ rfl
        exact Run.Ends.pure rfl
      case neg =>
        have goesOn : ∀ between, point ≤ between →
            outlook.Ends between (HashTable.find? keyOf equal hash sought rest) fun found _ =>
              found.isSome = true :=
          fun between le => induction ((List.mem_cons.mp member).resolve_left here)
            (fun last leLast => found last (le.trans leLast))
            fun last leLast other inRest =>
              others last (le.trans leLast) other (List.mem_cons_of_mem _ inRest)
        simp only [HashTable.find?]
        split
        case isFalse => exact goesOn point (le_refl _)
        case isTrue =>
          apply (others point (le_refl _) first (List.mem_cons_self ..)).bind
          intro answer between le _
          cases answer
          case true => exact Run.Ends.pure rfl
          case false => exact goesOn between le

/-- Every entry of a hash map is found under its own key. -/
theorem lookupOwn_ends (remembers : outlook.RemembersWithin bound point) {fuel : Nat}
    (within : bound ≤ fuel) (equates : outlook.Equates point bound equal)
    (reflexive : ∀ value, equal value value = pure true) {address : Nat}
    {entries : List Value.HashedEntry} {metadata : Option Value} {keys : List Datum}
    (readKeys : List.Forall₂ (outlook.Reads point) (entries.map (·.2.1)) keys)
    (costs : ∀ key ∈ keys, key.cost ≤ bound)
    (lawful : (hashMap address entries metadata).IsLawful (outlook.world point) keys)
    {entry : Value.HashedEntry} (member : entry ∈ entries) :
    outlook.Ends point
      (Value.lookupWith equal fuel (hashMap address entries metadata) entry.2.1)
      fun found _ => found = some entry.2.2 := by
  rcases lawful with ⟨hashes, distinct⟩
  have lengths : keys.length = entries.length := by rw [← readKeys.length_eq, List.length_map]
  have canRead := canRead_ofKeys readKeys costs
  have here : ∃ key, (key, entry) ∈ Keyed.ofKeys keys entries := by
    rcases List.mem_map.mp ((Keyed.elements_ofKeys lengths).symm ▸ member) with ⟨pair, inTable, rfl⟩
    exact ⟨pair.1, inTable⟩
  rcases here with ⟨key, inTable⟩
  have readKey := canRead _ inTable
  apply (outlook.hashWithin_ends (remembers.weaken readKey.2) (readKey.2.trans within)
    readKey.1).bind
  rintro _ between le rfl
  have sound : outlook.Ends between
      (HashTable.find? hashedKey equal key.hash entry.2.1 entries) fun found _ =>
        outlook.Finds found ((Keyed.ofKeys keys entries).lookup key) :=
    findHashed_of_keys (equates.from_later le) (readsWithin_later le readKey)
      (readsAll_later le readKeys) costs hashes distinct
  have finds : outlook.Ends between
      (HashTable.find? hashedKey equal key.hash entry.2.1 entries) fun found _ =>
        found.isSome = true := by
    refine findHashed_isSome member (Keyed.hash_of_mem_ofKeys hashes _ inTable) ?_ ?_
    · intro last _
      rw [show equal entry.2.1 (hashedKey entry).2 = pure true from reflexive _]
      exact Run.Ends.pure rfl
    · intro last leLast other inEntries
      rcases List.mem_map.mp ((Keyed.elements_ofKeys lengths).symm ▸ inEntries) with
        ⟨pair, otherInTable, rfl⟩
      have later := le.trans leLast
      exact (equates last later (readsWithin_later later readKey)
        (readsWithin_later later (canRead _ otherInTable))).weaken fun _ _ _ _ => trivial
  apply (sound.both finds).bind
  rintro found _ _ ⟨isThere, isSome⟩
  rcases Option.isSome_iff_exists.mp isSome with ⟨element, rfl⟩
  have same : (Keyed.ofKeys keys entries).lookup key = some entry :=
    (Keyed.lookup_eq_some_iff (by rwa [Keyed.keys_ofKeys lengths])).mpr inTable
  cases (isThere.1 element rfl).symm.trans same
  exact Run.Ends.pure rfl

/-- A map and a hash map with its entries are equal. -/
theorem equalCopy_ends {datum : Datum} (remembers : outlook.RemembersWithin (datum.cost - 1) point)
    {map : Value} {address : Nat} {entries : List Value.HashedEntry} {metadata : Option Value}
    (contents : map.mapEntries? = some (entries.map Prod.snd))
    (distinct : map.identical (hashMap address entries metadata) = false)
    (read : outlook.Reads point (hashMap address entries metadata) datum) {fuel : Nat}
    (within : datum.cost ≤ fuel) :
    outlook.Ends point (equalWithin fuel map (hashMap address entries metadata))
      fun answer _ => answer = true := by
  cases outlook.standing read with
  | leaf known => cases known
  | sequence kind => cases kind
  | set contents => cases contents
  | @map _ keys values ownContents readKeys readValues lawful =>
      cases ownContents
      rw [Datum.cost_map_arrange] at within remembers
      rcases fuel with _ | fuel
      · omega
      have inner : outlook.Equates point (Datum.costAll (List.zipWith Datum.entry keys values) + 1)
          (equalWithin fuel) :=
        outlook.equalWithin_equates (remembers.weaken (Nat.le_succ _)) (by omega)
      have costs : ∀ key ∈ keys,
          key.cost ≤ Datum.costAll (List.zipWith Datum.entry keys values) + 1 := fun key member =>
        ((Datum.cost_lt_costAll_entries (length_keys_eq readKeys readValues)
          (.inl member)).trans (Nat.lt_succ_self _)).le
      rw [List.map_map] at readKeys
      rw [Value.equalWithin_maps contents rfl distinct]
      unfold equalMaps
      rw [if_pos rfl]
      apply Value.forAll_ends_true
      intro between le entry member
      rcases List.mem_map.mp member with ⟨element, inTable, rfl⟩
      have reflexive : ∀ value, equalWithin fuel value value = pure true := by
        rcases fuel with _ | fuel
        · omega
        exact fun value => Value.equalWithin_of_identical value.identical_self fuel
      apply (lookupOwn_ends (remembers.later le) (by omega) (inner.from_later le) reflexive
        (readsAll_later le readKeys) costs (lawful_later le read lawful) inTable).bind
      rintro _ _ _ rfl
      dsimp only
      rw [reflexive]
      exact Run.Ends.pure rfl

end LispRuntime.Outlook
