import LispRuntime.Proofs.Value.Equality

/-! What equality, the hash and the order owe each other. Equality is an
equivalence and the order a total one, on values of any kind and nesting that
can be read. Equal values hash alike, and values that compare as equal are equal,
exactly as long as no array map remembers a hash that is not its own: a map may
remember what it hashed to while a lazy seq in it failed, and it still does when
the lazy seq is realized later. -/

namespace LispRuntime

namespace Outlook

variable {machine : Machine} {σ : Type} [Preorder σ] (outlook : Outlook machine σ) {point : σ}
  {left right : Value}

theorem hash_ends {value : Value} {datum : Datum}
    (remembers : outlook.RemembersWithin datum.cost point) (enough : datum.cost ≤ machine.limit)
    (read : outlook.Reads point value datum) :
    outlook.Ends point value.hash fun hash _ => hash = datum.hash :=
  Run.Ends.looking rfl (outlook.hashWithin_ends remembers enough read)

theorem compare_ends {leftDatum rightDatum : Datum}
    (readLeft : outlook.ReadsWithin machine.limit point left leftDatum)
    (readRight : outlook.ReadsWithin machine.limit point right rightDatum) :
    outlook.Ends point (left.compare right) fun order _ => order = leftDatum.compare rightDatum :=
  Run.Ends.looking rfl
    ((outlook.compareWithin_orders (Nat.le_refl _)).ends point (le_refl _) readLeft readRight)

theorem equal_ends {bound : Nat} (remembers : outlook.RemembersWithin bound point)
    (enough : bound + 1 ≤ machine.limit) {leftDatum rightDatum : Datum}
    (readLeft : outlook.ReadsWithin (bound + 1) point left leftDatum)
    (readRight : outlook.ReadsWithin (bound + 1) point right rightDatum) :
    outlook.Ends point (left.equal right) fun answer _ =>
      outlook.Judges answer (leftDatum = rightDatum) :=
  Run.Ends.looking rfl
    (outlook.equalWithin_equates remembers enough point (le_refl _) readLeft readRight)

end Outlook

namespace Moment

/-- Every chain in the value comes to an end, and its tables are in order. -/
def WellFormed (moment : Moment) (value : Value) : Prop := ∃ datum, moment.Reads value datum

/-- Maps are known because they can be read. -/
def IsLegible (moment : Moment) : Prop :=
  ∀ handle datum, moment.memory (.map handle) = some datum →
    ∃ entries metadata, moment.Reads (.arrayMap handle entries metadata) datum

/-- If a map that remembers a wrong hash is not found among the least, none is. -/
theorem remembersRight_of_least {moment : Moment}
    (least : ∀ handle datum, moment.memory (.map handle) = some datum →
      moment.RemembersWithin (datum.cost - 1) → moment.world.maps.remembered handle ≠ 0 →
      moment.world.maps.remembered handle = datum.hash) : moment.RemembersRight := by
  intro bound
  induction bound with
  | zero => exact fun _ datum _ within => absurd within (Nat.not_le_of_lt datum.cost_pos)
  | succ bound induction =>
      intro handle datum known within
      by_cases remembered : moment.world.maps.remembered handle = 0
      · exact .inl remembered
      · exact .inr (least handle datum known (induction.weaken (by omega)) remembered)

end Moment

namespace Value

section

variable {machine : Machine} {moment : Moment} {left right : Value}
  {leftDatum rightDatum : Datum}

theorem equal_always {bound : Nat} (remembers : moment.RemembersWithin bound)
    (enough : bound + 1 ≤ machine.limit) (readLeft : moment.Reads left leftDatum)
    (leftWithin : leftDatum.cost ≤ bound + 1) (readRight : moment.Reads right rightDatum)
    (rightWithin : rightDatum.cost ≤ bound + 1) :
    Always machine moment (left.equal right) (decide (leftDatum = rightDatum)) := by
  intro later le
  let outlook : Outlook machine Moment := Moment.outlook (by omega)
  have there : outlook.RemembersWithin bound later := le.remembers _ remembers
  have ends := outlook.equal_ends there enough ⟨Moment.reads_later le readLeft, leftWithin⟩
    ⟨Moment.reads_later le readRight, rightWithin⟩
  exact ends.weaken fun _ _ _ judges => judges.eq_decide trivial

theorem compare_always (readLeft : moment.Reads left leftDatum)
    (leftWithin : leftDatum.cost ≤ machine.limit) (readRight : moment.Reads right rightDatum)
    (rightWithin : rightDatum.cost ≤ machine.limit) :
    Always machine moment (left.compare right) (leftDatum.compare rightDatum) := by
  intro later le
  have enough : 0 < machine.limit := leftDatum.cost_pos.trans_le leftWithin
  exact (Moment.outlook enough).compare_ends ⟨Moment.reads_later le readLeft, leftWithin⟩
    ⟨Moment.reads_later le readRight, rightWithin⟩

theorem hash_always {value : Value} {datum : Datum}
    (remembers : moment.RemembersWithin datum.cost) (read : moment.Reads value datum)
    (within : datum.cost ≤ machine.limit) : Always machine moment value.hash datum.hash := by
  intro later le
  exact (Moment.outlook (datum.cost_pos.trans_le within)).hash_ends (le.remembers _ remembers)
    within (Moment.reads_later le read)

end

/-! ## Equality and hashes -/

/-- Equality is an equivalence, and equal values hash alike. -/
structure EqualityLaws (machine : Machine) (moment : Moment) (first second third : Value) :
    Prop where
  reflexive : Always machine moment (first.equal first) true
  symmetric : ∃ answer, Always machine moment (first.equal second) answer ∧
    Always machine moment (second.equal first) answer
  transitive : Once machine moment (first.equal second) true →
    Once machine moment (second.equal third) true →
    Always machine moment (first.equal third) true
  hash_eq : Once machine moment (first.equal second) true →
    ∃ hash, Always machine moment first.hash hash ∧ Always machine moment second.hash hash

theorem equalityLaws_of_remembersRight {moment : Moment} (remembers : moment.RemembersRight)
    {first second third : Value} (readFirst : moment.WellFormed first)
    (readSecond : moment.WellFormed second) (readThird : moment.WellFormed third) :
    ∃ enough, ∀ machine : Machine, enough ≤ machine.limit →
      EqualityLaws machine moment first second third := by
  rcases readFirst with ⟨firstDatum, readFirst⟩
  rcases readSecond with ⟨secondDatum, readSecond⟩
  rcases readThird with ⟨thirdDatum, readThird⟩
  refine ⟨firstDatum.cost + secondDatum.cost + thirdDatum.cost + 1, fun machine enough => ?_⟩
  have equal : ∀ {left right : Value} {leftDatum rightDatum : Datum},
      moment.Reads left leftDatum → leftDatum.cost < machine.limit →
      moment.Reads right rightDatum → rightDatum.cost < machine.limit →
      Always machine moment (left.equal right) (decide (leftDatum = rightDatum)) :=
    fun readLeft leftWithin readRight rightWithin =>
      equal_always (remembers (machine.limit - 1)) (by omega) readLeft (by omega) readRight
        (by omega)
  have once : ∀ {left right : Value} {leftDatum rightDatum : Datum},
      moment.Reads left leftDatum → leftDatum.cost < machine.limit →
      moment.Reads right rightDatum → rightDatum.cost < machine.limit →
      Once machine moment (left.equal right) true → leftDatum = rightDatum :=
    fun readLeft leftWithin readRight rightWithin ended =>
      of_decide_eq_true
        ((equal readLeft leftWithin readRight rightWithin).eq_of_once ended).symm
  constructor
  · simpa using equal readFirst (by omega) readFirst (by omega)
  · refine ⟨decide (firstDatum = secondDatum),
      equal readFirst (by omega) readSecond (by omega), ?_⟩
    simpa [eq_comm] using equal readSecond (by omega) readFirst (by omega)
  · intro firstSecond secondThird
    have same := (once readFirst (by omega) readSecond (by omega) firstSecond).trans
      (once readSecond (by omega) readThird (by omega) secondThird)
    simpa [same] using equal readFirst (by omega) readThird (by omega)
  · intro firstSecond
    have same := once readFirst (by omega) readSecond (by omega) firstSecond
    subst same
    exact ⟨firstDatum.hash, hash_always (remembers _) readFirst (by omega),
      hash_always (remembers _) readSecond (by omega)⟩

/-! An array map with a wrong hash gives itself away: beside it a hash map of the
same entries is equal to it and hashes differently. -/

section

variable {machine : Machine} {moment : Moment} {handle : Nat}
  {entries : List (Value × Value)} {metadata : Option Value} {datum : Datum}

/-- A map that remembers a hash does not look at its entries. -/
theorem hashWithin_run_remembered {world : World} (remembered : world.maps.remembered handle ≠ 0)
    {fuel : Nat} (enough : 0 < fuel) :
    hashWithin fuel (arrayMap handle entries metadata) machine world =
      some (world.maps.remembered handle, world) := by
  rcases fuel with _ | fuel
  · cases enough
  rw [hashWithin]
  unfold ArrayMap.PoolAccess.hash
  have known : (((world.maps.handle? handle).map ArrayMap.Handle.hash).getD 0 != 0) = true :=
    bne_iff_ne.mpr remembered
  have looked : Run.pool.read machine world = some (world.maps, world) := rfl
  rw [Run.run_bind looked]
  dsimp only
  rw [if_pos known]
  rfl

theorem hashWithin_remembered (remembered : moment.world.maps.remembered handle ≠ 0)
    {fuel : Nat} (enough : 0 < fuel) :
    Gives machine moment (hashWithin fuel (arrayMap handle entries metadata)) fun hash _ =>
      hash = moment.world.maps.remembered handle :=
  ⟨_, moment, hashWithin_run_remembered remembered enough, le_refl _, rfl⟩

/-- The entries of a map with the hashes of their keys. -/
theorem exists_hashed {entries : List (Value × Value)} {keys : List Datum}
    (lengths : entries.length = keys.length) :
    ∃ hashed : List HashedEntry, hashed.map Prod.snd = entries ∧
      hashed.map Prod.fst = keys.map Datum.hash :=
  have lengths : (keys.map Datum.hash).length = entries.length := by
    rw [List.length_map, lengths]
  ⟨(keys.map Datum.hash).zip entries, List.map_snd_zip lengths.ge, List.map_fst_zip lengths.le⟩

/-- A hash map of the same entries stands for the same datum. -/
theorem hashMap_reads (read : moment.Reads (arrayMap handle entries metadata) datum) :
    ∃ hashed, (moment.place datum).Reads
      (hashMap moment.world.addresses hashed none) datum := by
  cases read with
  | leaf known => cases known
  | sequence kind => cases kind
  | set contents => cases contents
  | @map _ _ keys values contents readKeys readValues lawful =>
      cases contents
      have lengths : entries.length = keys.length := by
        rw [← readKeys.length_eq, List.length_map]
      rcases exists_hashed lengths with ⟨hashed, rfl, hashes⟩
      have le := moment.le_place (.map (Datum.arrange (List.zipWith Datum.entry keys values)))
      refine ⟨hashed, .map rfl (Moment.readsAll_later le readKeys)
        (Moment.readsAll_later le readValues) ⟨hashes, lawful.2⟩ ?_⟩
      rintro address ⟨⟩
      exact moment.place_memory _

/-- Equal they are, but one remembers and the other does not. -/
theorem equal_and_hash_of_remembered (read : moment.Reads (arrayMap handle entries metadata) datum)
    (remembers : moment.RemembersWithin (datum.cost - 1))
    (remembered : moment.world.maps.remembered handle ≠ 0) :
    ∃ twin, (moment.place datum).Reads twin datum ∧
      ∀ machine : Machine, datum.cost ≤ machine.limit →
        Once machine (moment.place datum) ((arrayMap handle entries metadata).equal twin) true ∧
        Once machine (moment.place datum) (arrayMap handle entries metadata).hash
          (moment.world.maps.remembered handle) ∧
        Once machine (moment.place datum) twin.hash datum.hash := by
  rcases hashMap_reads read with ⟨hashed, readTwin⟩
  refine ⟨_, readTwin, fun machine enough => ?_⟩
  have le := moment.le_place datum
  have later := le.remembers _ remembers
  have positive := datum.cost_pos
  refine ⟨?_, ?_, ?_⟩
  · have equal : Always machine (moment.place datum) _ (decide (datum = datum)) :=
      equal_always later (by omega) (Moment.reads_later le read) (by omega) readTwin (by omega)
    simpa using equal.once
  · have still : (moment.place datum).world.maps.remembered handle ≠ 0 := remembered
    refine Gives.once (Gives.looking rfl ?_)
    exact hashWithin_remembered still (positive.trans_le enough)
  · refine Gives.once (Gives.looking rfl ?_)
    exact hashWithin_own_gives (by simp [address?]) later (positive.trans_le enough) enough readTwin

theorem remembersRight_of_equalityLaws (legible : moment.IsLegible)
    (laws : ∀ later, moment ≤ later → ∀ first second third, later.WellFormed first →
      later.WellFormed second → later.WellFormed third →
      ∃ enough, ∀ machine : Machine, enough ≤ machine.limit →
        EqualityLaws machine later first second third) :
    moment.RemembersRight := by
  refine Moment.remembersRight_of_least fun handle datum known remembers remembered => ?_
  rcases legible handle datum known with ⟨entries, metadata, read⟩
  rcases equal_and_hash_of_remembered read remembers remembered with ⟨twin, readTwin, runs⟩
  have le := moment.le_place datum
  have wellFormed : (moment.place datum).WellFormed (arrayMap handle entries metadata) :=
    ⟨datum, Moment.reads_later le read⟩
  rcases laws _ le _ _ _ wellFormed ⟨datum, readTwin⟩ ⟨datum, readTwin⟩ with ⟨enough, holds⟩
  let machine : Machine := ⟨fun _ _ _ _ => none, [], enough + datum.cost⟩
  rcases runs machine (Nat.le_add_left _ _) with ⟨equal, hashMap, hashTwin⟩
  rcases (holds machine (Nat.le_add_right _ _)).hash_eq equal with
    ⟨hash, alwaysMap, alwaysTwin⟩
  exact (alwaysMap.eq_of_once hashMap).trans (alwaysTwin.eq_of_once hashTwin).symm

end

/-- Equality is an equivalence on values that can be read, and equal values hash
alike, from now on, exactly if no known map remembers a wrong hash now. -/
theorem equalityLaws_iff (moment : Moment) (legible : moment.IsLegible) :
    moment.RemembersRight ↔
      ∀ later, moment ≤ later → ∀ first second third, later.WellFormed first →
        later.WellFormed second → later.WellFormed third →
        ∃ enough, ∀ machine : Machine, enough ≤ machine.limit →
          EqualityLaws machine later first second third := by
  constructor
  · intro remembers later le first second third readFirst readSecond readThird
    exact equalityLaws_of_remembersRight (fun bound => le.remembers bound (remembers bound))
      readFirst readSecond readThird
  · exact remembersRight_of_equalityLaws legible

/-! For example, an array map was hashed while a lazy seq in it failed. Since then the
lazy seq has been realized, and it is a list of one. -/

private def realizedDatum : Datum := .sequence [.leaf (.integer 1)]

private def mapDatum : Datum :=
  .map (Datum.arrange [Datum.entry (.leaf (.integer 1)) realizedDatum])

private def mapEntries : List (Value × Value) := [(.integer 1, .lazySeq ⟨0⟩)]

/-- The map remembers this hash. -/
def remembering (hash : UInt32) : Moment where
  memory
    | .heap 0 | .deferred 0 => some realizedDatum
    | .map 0 => some mapDatum
    | _ => none
  world :=
    { World.initial with
      addresses := 1
      maps := ⟨Store.empty.push (mapEntries.map some), Store.empty.push ⟨0, 1, hash, false⟩⟩
      deferred := Store.empty.push (.realized (list 0 [integer 1] none)) }
  heap_taken index datum known := by
    rcases index with _ | index
    · exact Nat.one_pos
    · cases known
  maps_sound handle record found live := by
    rcases handle with _ | handle
    · cases found
      exact ⟨mapEntries, [], rfl, rfl, rfl, rfl, by decide⟩
    · cases found
  map_held handle datum known := by
    rcases handle with _ | handle
    · exact ⟨mapEntries, _, [], rfl, rfl, rfl, rfl, by decide⟩
    · cases known

private theorem remembering_reads (hash : UInt32) :
    (remembering hash).Reads (arrayMap 0 mapEntries none) mapDatum := by
  have one : (remembering hash).Reads (integer 1) (.leaf (.integer 1)) := .leaf rfl nofun
  change (remembering hash).Reads _ (.map (Datum.arrange
    (List.zipWith Datum.entry [.leaf (.integer 1)] [realizedDatum])))
  refine .map rfl (.cons one .nil) (.cons ?_ .nil) ⟨rfl, List.nodup_singleton _⟩ ?_
  · refine .sequence rfl (.lazySeq rfl rfl (.list (.cons one .nil))) ?_
    rintro _ ⟨⟩
    rfl
  · rintro _ ⟨⟩
    rfl

theorem remembering_isLegible (hash : UInt32) : (remembering hash).IsLegible := by
  intro handle datum known
  rcases handle with _ | handle
  · cases known
    exact ⟨_, _, remembering_reads hash⟩
  · cases known

private theorem hash_mapDatum : mapDatum.hash = 1856397414 := by decide +kernel

theorem remembering_right : (remembering 1856397414).RemembersRight := by
  intro bound handle datum known _
  rcases handle with _ | handle
  · cases known
    exact .inr hash_mapDatum.symm
  · cases known

theorem remembering_wrong : ¬(remembering 1111401505).RemembersRight := by
  intro remembers
  have right := remembers _ 0 mapDatum rfl (Nat.le_refl _)
  rw [hash_mapDatum] at right
  rcases right with right | right <;> exact absurd right (by decide)

/-- With the hash that the map has now, the laws hold; with the one from then, they do
not. -/
theorem equalityLaws_remembering :
    (∀ later, remembering 1856397414 ≤ later → ∀ first second third,
      later.WellFormed first → later.WellFormed second → later.WellFormed third →
      ∃ enough, ∀ machine : Machine, enough ≤ machine.limit →
        EqualityLaws machine later first second third) ∧
    ¬∀ later, remembering 1111401505 ≤ later → ∀ first second third,
      later.WellFormed first → later.WellFormed second → later.WellFormed third →
      ∃ enough, ∀ machine : Machine, enough ≤ machine.limit →
        EqualityLaws machine later first second third :=
  ⟨(equalityLaws_iff _ (remembering_isLegible _)).mp remembering_right,
    fun laws => remembering_wrong ((equalityLaws_iff _ (remembering_isLegible _)).mpr laws)⟩

/-! ## The order -/

/-- The order is turned around with its arguments, and goes on through a third value. -/
structure OrderLaws (machine : Machine) (moment : Moment) (first second third : Value) :
    Prop where
  swap : ∃ order, Always machine moment (first.compare second) order ∧
    Always machine moment (second.compare first) order.swap
  trans : ∀ left right, Once machine moment (first.compare second) left →
    Once machine moment (second.compare third) right → left.isLE → right.isLE →
    ∃ order, Always machine moment (first.compare third) order ∧ order.isLE ∧
      (order = .eq ↔ left = .eq ∧ right = .eq)

/-- To compare as equal is to be equal. -/
def ComparesAsEqual (machine : Machine) (moment : Moment) (first second : Value) : Prop :=
  ∃ order, Always machine moment (first.compare second) order ∧
    Always machine moment (first.equal second) (order == .eq)

/-- No hash has any part in the order. -/
theorem orderLaws {moment : Moment} {first second third : Value}
    (readFirst : moment.WellFormed first) (readSecond : moment.WellFormed second)
    (readThird : moment.WellFormed third) :
    ∃ enough, ∀ machine : Machine, enough ≤ machine.limit →
      OrderLaws machine moment first second third := by
  rcases readFirst with ⟨firstDatum, readFirst⟩
  rcases readSecond with ⟨secondDatum, readSecond⟩
  rcases readThird with ⟨thirdDatum, readThird⟩
  refine ⟨firstDatum.cost + secondDatum.cost + thirdDatum.cost, fun machine enough => ?_⟩
  have firstSecond : Always machine moment (first.compare second) _ :=
    compare_always readFirst (by omega) readSecond (by omega)
  have secondFirst : Always machine moment (second.compare first) _ :=
    compare_always readSecond (by omega) readFirst (by omega)
  have secondThird : Always machine moment (second.compare third) _ :=
    compare_always readSecond (by omega) readThird (by omega)
  have firstThird : Always machine moment (first.compare third) _ :=
    compare_always readFirst (by omega) readThird (by omega)
  constructor
  · refine ⟨_, firstSecond, ?_⟩
    rwa [← Datum.compare_swap]
  · intro left right once onceAgain leftLE rightLE
    rw [firstSecond.eq_of_once once] at leftLE ⊢
    rw [secondThird.eq_of_once onceAgain] at rightLE ⊢
    have le : firstDatum ≤ secondDatum := leftLE
    have leAgain : secondDatum ≤ thirdDatum := rightLE
    refine ⟨_, firstThird, le.trans leAgain, ?_⟩
    simp only [Std.LawfulEqCmp.compare_eq_iff_eq]
    constructor
    · rintro rfl
      have same := le_antisymm le leAgain
      exact ⟨same, same.symm⟩
    · rintro ⟨rfl, rfl⟩
      rfl

theorem comparesAsEqual_of_remembersRight {moment : Moment} (remembers : moment.RemembersRight)
    {first second : Value} (readFirst : moment.WellFormed first)
    (readSecond : moment.WellFormed second) :
    ∃ enough, ∀ machine : Machine, enough ≤ machine.limit →
      ComparesAsEqual machine moment first second := by
  rcases readFirst with ⟨firstDatum, readFirst⟩
  rcases readSecond with ⟨secondDatum, readSecond⟩
  refine ⟨firstDatum.cost + secondDatum.cost, fun machine enough => ?_⟩
  have positive := firstDatum.cost_pos
  refine ⟨_, compare_always readFirst (by omega) readSecond (by omega), ?_⟩
  have equal : Always machine moment (first.equal second) (decide (firstDatum = secondDatum)) :=
    equal_always (remembers (machine.limit - 1)) (by omega) readFirst (by omega) readSecond
      (by omega)
  have same : (firstDatum.compare secondDatum == .eq) = decide (firstDatum = secondDatum) := by
    rw [Bool.eq_iff_iff, beq_iff_eq, decide_eq_true_iff, Std.LawfulEqCmp.compare_eq_iff_eq]
  rwa [same]

/-! A wrong hash also tells apart sets that compare as equal: a hash set does not
find in itself what it should have. -/

section

variable {moment : Moment} {handle : Nat} {entries : List (Value × Value)}
  {metadata : Option Value} {datum : Datum}

/-- A hash set with a wrongly hashed map in its proper place does not find it. -/
theorem not_equal_of_remembered (remembered : moment.world.maps.remembered handle ≠ 0)
    (wrong : moment.world.maps.remembered handle ≠ datum.hash) (first second : Nat)
    {machine : Machine} (enough : 2 ≤ machine.limit) :
    Gives machine moment
      ((sortedSet first [arrayMap handle entries metadata] none).equal
        (hashSet second [(datum.hash, arrayMap handle entries metadata)] none))
      fun answer _ => answer = false := by
  rcases Nat.exists_eq_add_of_le' enough with ⟨fuel, limit⟩
  apply Gives.looking rfl
  rw [limit]
  have finds : Gives machine moment
      (memberWith (equalWithin (fuel + 1)) (fuel + 1)
        (hashSet second [(datum.hash, arrayMap handle entries metadata)] none)
        (arrayMap handle entries metadata)) fun answer _ => answer = false := by
    apply (hashWithin_remembered remembered (Nat.succ_pos fuel)).bind
    rintro _ _ _ rfl
    simp only [HashTable.find?, id, beq_eq_false_iff_ne.mpr wrong.symm]
    exact Gives.pure rfl
  rw [equalWithin_sets rfl rfl rfl]
  unfold equalSets forAll
  rw [if_pos (by simp)]
  apply finds.bind
  rintro _ _ _ rfl
  exact Gives.pure rfl

theorem remembersRight_of_comparesAsEqual (legible : moment.IsLegible)
    (laws : ∀ later, moment ≤ later → ∀ first second, later.WellFormed first →
      later.WellFormed second → ∃ enough, ∀ machine : Machine, enough ≤ machine.limit →
        ComparesAsEqual machine later first second) : moment.RemembersRight := by
  refine Moment.remembersRight_of_least fun handle datum known _ remembered => ?_
  by_contra wrong
  rcases legible handle datum known with ⟨entries, metadata, read⟩
  let singleton : Datum := .set (Datum.arrange [datum])
  let later := (moment.place singleton).place singleton
  have le : moment ≤ later := (moment.le_place _).trans (Moment.le_place _ _)
  have readItem := Moment.reads_later le read
  have readSorted : later.Reads
      (sortedSet moment.world.addresses [arrayMap handle entries metadata] none) singleton := by
    refine .set rfl (.cons readItem .nil) (List.pairwise_singleton _ _) ?_
    rintro address ⟨⟩
    exact (Moment.le_place _ _).memory _ _ (moment.place_memory _)
  have readHashed : later.Reads
      (hashSet (moment.world.addresses + 1)
        [(datum.hash, arrayMap handle entries metadata)] none) singleton := by
    refine .set rfl (.cons readItem .nil) ⟨rfl, List.nodup_singleton _⟩ ?_
    rintro address ⟨⟩
    exact (moment.place singleton).place_memory _
  rcases laws later le _ _ ⟨_, readSorted⟩ ⟨_, readHashed⟩ with ⟨enough, holds⟩
  let machine : Machine := ⟨fun _ _ _ _ => none, [], enough + singleton.cost + 2⟩
  have room : enough + singleton.cost + 2 = machine.limit := rfl
  rcases holds machine (by omega) with ⟨order, compares, equals⟩
  have same := compares.eq_of_once
    (compare_always readSorted (by omega) readHashed (by omega)).once
  rw [Datum.compare_self] at same
  subst same
  have still : later.world.maps.remembered handle ≠ 0 := remembered
  cases equals.eq_of_once (not_equal_of_remembered still wrong _ _ (by omega)).once

end

/-- Values that can be read are in a total order. To compare as equal is to be
equal exactly if no known map remembers a wrong hash. -/
theorem orderLaws_and_comparesAsEqual_iff (moment : Moment) (legible : moment.IsLegible) :
    (∀ first second third, moment.WellFormed first → moment.WellFormed second →
      moment.WellFormed third → ∃ enough, ∀ machine : Machine, enough ≤ machine.limit →
        OrderLaws machine moment first second third) ∧
    (moment.RemembersRight ↔
      ∀ later, moment ≤ later → ∀ first second, later.WellFormed first →
        later.WellFormed second → ∃ enough, ∀ machine : Machine, enough ≤ machine.limit →
          ComparesAsEqual machine later first second) := by
  refine ⟨fun first second third => orderLaws, ?_, remembersRight_of_comparesAsEqual legible⟩
  intro remembers later le first second
  exact comparesAsEqual_of_remembersRight fun bound => le.remembers bound (remembers bound)

theorem comparesAsEqual_remembering :
    (∀ later, remembering 1856397414 ≤ later → ∀ first second, later.WellFormed first →
      later.WellFormed second → ∃ enough, ∀ machine : Machine, enough ≤ machine.limit →
        ComparesAsEqual machine later first second) ∧
    ¬∀ later, remembering 1111401505 ≤ later → ∀ first second, later.WellFormed first →
      later.WellFormed second → ∃ enough, ∀ machine : Machine, enough ≤ machine.limit →
        ComparesAsEqual machine later first second :=
  ⟨(orderLaws_and_comparesAsEqual_iff _ (remembering_isLegible _)).2.mp remembering_right,
    fun laws => remembering_wrong
      ((orderLaws_and_comparesAsEqual_iff _ (remembering_isLegible _)).2.mpr laws)⟩

end Value

end LispRuntime
