import LispRuntime.Proofs.Collection.Agreement

/-! An array map that remembers a wrong hash is a bad key. A hash map does not find
it where it looks for its hash, so it keeps it beside a key that is equal to it, and has
one entry more than the finite map. Where no map remembers a wrong hash, and only there,
maps and sets of all kinds agree. -/

namespace LispRuntime

open MapWrite (additions)

section

variable {machine : Machine} {moment : Moment}

/-- Two keys that hash differently stand beside each other, even if they are equal. -/
theorem hashMapOf_of_hash_ne {first second firstValue secondValue : Value}
    {firstHash secondHash : UInt32} (different : firstHash ≠ secondHash)
    (hashesFirst : Gives machine moment first.hash fun hash _ => hash = firstHash)
    (hashesSecond : Always machine moment second.hash secondHash) :
    Gives machine moment (Value.hashMapOf [(first, firstValue), (second, secondValue)])
      fun map _ => ∃ address, map = .hashMap address
        [(firstHash, first, firstValue), (secondHash, second, secondValue)] none := by
  have one : Gives machine moment (HashTable.assoc [] first firstValue) fun made _ =>
      made = [(firstHash, first, firstValue)] := by
    apply hashesFirst.bind
    rintro _ between le rfl
    exact Gives.pure rfl
  have two : Gives machine moment
      (HashTable.ofEntries [(first, firstValue), (second, secondValue)]) fun made _ =>
        made = [(firstHash, first, firstValue), (secondHash, second, secondValue)] := by
    rw [HashTable.ofEntries, List.foldlM_cons]
    apply one.bind
    rintro _ between le rfl
    rw [List.foldlM_cons]
    refine Gives.bind ((hashesSecond between le).bind ?_) fun _ _ _ made => Gives.pure made
    rintro _ after _ rfl
    rw [HashTable.insert]
    dsimp only [Value.hashedKey]
    rw [if_neg (different ∘ beq_iff_eq.mp)]
    exact Gives.pure rfl
  apply two.bind
  rintro _ after _ rfl
  exact Gives.freshAddress.bind fun address _ _ _ => Gives.pure ⟨address, rfl⟩

/-- So it is with a map that remembers a wrong hash and a hash map of its entries. -/
theorem hashMapOf_remembered {handle : Nat} {entries : List (Value × Value)}
    {metadata : Option Value} {datum : Datum}
    (read : moment.Reads (.arrayMap handle entries metadata) datum)
    (remembers : moment.RemembersWithin (datum.cost - 1))
    (remembered : moment.world.maps.remembered handle ≠ 0)
    (wrong : moment.world.maps.remembered handle ≠ datum.hash) :
    ∃ twin, (moment.place datum).Reads twin datum ∧
      ∀ machine : Machine, datum.cost ≤ machine.limit →
        Gives machine (moment.place datum)
          (Value.hashMapOf [(.arrayMap handle entries metadata, .nil), (twin, .nil)])
          fun map _ => ∃ address first second, map = .hashMap address [first, second] none := by
  rcases Value.hashMap_reads read with ⟨hashed, readTwin⟩
  refine ⟨_, readTwin, fun machine enough => ?_⟩
  have positive := datum.cost_pos.trans_le enough
  have later := (moment.le_place datum).remembers _ remembers
  have still : (moment.place datum).world.maps.remembered handle ≠ 0 := remembered
  have hashes : Gives machine (moment.place datum)
      (Value.hash (.arrayMap handle entries metadata)) fun hash _ =>
        hash = moment.world.maps.remembered handle :=
    Gives.looking rfl (Value.hashWithin_remembered still positive)
  have hashesTwin : Always machine (moment.place datum)
      (Value.hash (.hashMap moment.world.addresses hashed none)) datum.hash := fun between le =>
    Gives.looking rfl (Value.hashWithin_own_gives (by simp [Value.address?])
      (le.remembers _ later) positive enough (Moment.reads_later le readTwin))
  apply (hashMapOf_of_hash_ne wrong hashes hashesTwin).weaken
  rintro _ _ _ ⟨address, rfl⟩
  exact ⟨address, _, _, rfl⟩

/-- The hash map is made first. -/
theorem MapTrio.hashed_of_run {pairs : List (Value × Value)} {made : Value → Prop}
    {post : List MapTrio → Moment → Prop}
    (gives : Gives machine moment (Value.hashMapOf pairs) fun map _ => made map)
    (succeeds : Succeeds machine moment (MapTrio.run pairs []) post) :
    ∃ trio after, made trio.hashed ∧ post [trio] after := by
  rcases gives with ⟨map, between, ran, _, good⟩
  rcases succeeds with ⟨_, after, ranAll, _, trios, rfl, holds⟩
  rcases Attempt.of_bind_eq_ok ranAll with ⟨trio, last, ranPairs, ranTrace⟩
  have single : some (Except.ok [trio], last) = some (.ok trios, after.world) := ranTrace
  cases single
  refine ⟨trio, after, ?_, holds⟩
  rcases Attempt.of_bind_eq_ok ranPairs with ⟨hashed, first, ranHashed, ranOthers⟩
  rcases Attempt.of_bind_eq_ok ranOthers with ⟨small, second, _, ranSorted⟩
  rcases Attempt.of_bind_eq_ok ranSorted with ⟨sorted, third, _, ranLast⟩
  have lifted : (ExceptT.lift (Value.hashMapOf pairs) : Attempt Value).run machine moment.world =
      some (.ok map, between.world) := by
    change (Value.hashMapOf pairs machine moment.world).bind _ = _
    rw [ran]
    rfl
  cases lifted.symm.trans ranHashed
  have last : some (Except.ok (MapTrio.mk map small sorted), third) =
      some (.ok trio, after.world) := ranLast
  cases last
  exact good

theorem remembersRight_of_mapsAgree (legible : moment.IsLegible)
    (agree : ∀ later, moment ≤ later → MapsAgree later) : moment.RemembersRight := by
  -- In the least map that remembers a wrong hash, everything else hashes right.
  refine Moment.remembersRight_of_least fun handle datum known remembers remembered => ?_
  by_contra wrong
  rcases legible handle datum known with ⟨entries, metadata, read⟩
  rcases hashMapOf_remembered read remembers remembered wrong with ⟨twin, readTwin, gives⟩
  have le := moment.le_place datum
  have keys : ∀ write ∈ additions [(.arrayMap handle entries metadata, .nil), (twin, .nil)] ++
      List.flatMap MapStep.writes [], (moment.place datum).Reads write.key datum := by
    intro write member
    simp only [additions, List.map_cons, List.map_nil, List.flatMap_nil, List.append_nil,
      List.mem_cons, List.not_mem_nil, or_false] at member
    rcases member with rfl | rfl
    · exact Moment.reads_later le read
    · exact readTwin
  rcases agree _ le (fun _ => datum) _ _ keys with ⟨enough, holds⟩
  let machine : Machine := ⟨fun _ _ _ _ => none, [], enough + datum.cost⟩
  rcases MapTrio.hashed_of_run (gives machine (Nat.le_add_left _ _))
    (holds machine (Nat.le_add_right _ _)) with
    ⟨trio, after, ⟨address, first, second, twice⟩, agrees⟩
  cases agrees after (le_refl _) with
  | cons agrees _ =>
      have member : trio.hashed ∈ trio.all := List.mem_cons_self ..
      rcases (agrees.shows trio.hashed member).count with ⟨_, _, ran, _, count, rfl, shown⟩
      have one : (((∅ : DatumMap).insert datum Value.nil).insert datum Value.nil).size = 1 := by
        simp [Std.ExtTreeMap.size_insert]
      rw [twice] at ran
      have counted : some (Except.ok 2) = some (Except.ok count) :=
        congrArg (Option.map Prod.fst) ran
      cases counted
      cases shown.trans one

end

/-- Maps that start with the same pairs agree, and sets that start with the same items,
after every step from now on, exactly if no known map remembers a wrong hash now. -/
theorem mapsAgree_and_setsAgree_iff (moment : Moment) (legible : moment.IsLegible) :
    moment.RemembersRight ↔ ∀ later, moment ≤ later → MapsAgree later ∧ SetsAgree later := by
  constructor
  · intro remembers later le
    have still : later.RemembersRight := fun bound => le.remembers bound (remembers bound)
    exact ⟨mapsAgree_of_remembersRight still, setsAgree_of_remembersRight still⟩
  · intro agree
    exact remembersRight_of_mapsAgree legible fun later le => (agree later le).1

/-- The map of a list that was hashed when the list was not there yet is such a key. -/
theorem mapsAgree_and_setsAgree_remembering :
    (∀ later, Value.remembering 1856397414 ≤ later → MapsAgree later ∧ SetsAgree later) ∧
    ¬∀ later, Value.remembering 1111401505 ≤ later → MapsAgree later ∧ SetsAgree later :=
  ⟨(mapsAgree_and_setsAgree_iff _ (Value.remembering_isLegible _)).mp Value.remembering_right,
    fun agree => Value.remembering_wrong
      ((mapsAgree_and_setsAgree_iff _ (Value.remembering_isLegible _)).mpr agree)⟩

end LispRuntime
