import LispRuntime.Proofs.Value.Lookup

/-! Values that can be read are equal when they stand for one datum. Identity
is a shortcut to that; sequences are compared element by element, and maps and
sets of one size are equal when one has what the other has. -/

namespace LispRuntime

/-! ## Tables without equal keys -/

namespace Keyed

variable {ε : Type}

theorem lookup_eq_some_iff {table : Keyed ε} (distinct : table.keys.Nodup) {key : Datum}
    {element : ε} : table.lookup key = some element ↔ (key, element) ∈ table := by
  induction table with
  | nil => simp
  | cons pair rest induction =>
      rcases pair with ⟨first, other⟩
      rcases List.nodup_cons.mp distinct with ⟨notAgain, distinctRest⟩
      rw [List.lookup_cons, List.mem_cons]
      by_cases same : key = first
      · subst same
        have absent : (key, element) ∉ rest :=
          fun member => notAgain (List.mem_map.mpr ⟨_, member, rfl⟩)
        simp [absent, eq_comm]
      · rw [beq_eq_false_iff_ne.mpr same]
        simpa [same] using induction distinctRest

theorem perm_iff_lookup {left right : Keyed ε} (leftDistinct : left.keys.Nodup)
    (rightDistinct : right.keys.Nodup) (lengths : left.length = right.length) :
    left.Perm right ↔ ∀ pair ∈ left, right.lookup pair.1 = some pair.2 := by
  have found : (∀ pair ∈ left, right.lookup pair.1 = some pair.2) ↔ left ⊆ right :=
    forall₂_congr fun _ _ => lookup_eq_some_iff rightDistinct
  rw [found]
  constructor
  · exact fun perm => perm.subset
  · intro subset
    exact (List.subperm_of_subset (List.Nodup.of_map _ leftDistinct) subset).perm_of_length_le
      lengths.ge

end Keyed

namespace Datum

theorem entry_injective : Function.Injective (Function.uncurry entry) := by
  rintro ⟨leftKey, leftValue⟩ ⟨rightKey, rightValue⟩ same
  simpa [entry, Function.uncurry] using same

/-- Maps of one size are one when the entries of one are found in the other. -/
theorem map_eq_iff {leftKeys leftValues rightKeys rightValues : List Datum}
    (leftLengths : leftKeys.length = leftValues.length)
    (rightLengths : rightKeys.length = rightValues.length)
    (lengths : leftKeys.length = rightKeys.length) (leftDistinct : leftKeys.Nodup)
    (rightDistinct : rightKeys.Nodup) :
    map (arrange (List.zipWith entry leftKeys leftValues)) =
        map (arrange (List.zipWith entry rightKeys rightValues)) ↔
      ∀ pair ∈ leftKeys.zip leftValues,
        (Keyed.ofKeys rightKeys rightValues).lookup pair.1 = some pair.2 := by
  rw [map.injEq, arrange_eq_iff_perm, ← List.map_uncurry_zip_eq_zipWith,
    ← List.map_uncurry_zip_eq_zipWith, List.map_perm_map_iff entry_injective]
  refine Keyed.perm_iff_lookup ?_ ?_ ?_
  · rwa [Keyed.keys, List.map_fst_zip leftLengths.le]
  · rwa [Keyed.keys, List.map_fst_zip rightLengths.le]
  · simp [← leftLengths, ← rightLengths, lengths]

theorem length_eq_of_map_eq {leftKeys leftValues rightKeys rightValues : List Datum}
    (leftLengths : leftKeys.length = leftValues.length)
    (rightLengths : rightKeys.length = rightValues.length)
    (same : map (arrange (List.zipWith entry leftKeys leftValues)) =
      map (arrange (List.zipWith entry rightKeys rightValues))) :
    leftKeys.length = rightKeys.length := by
  rw [map.injEq, arrange_eq_iff_perm] at same
  simpa [← leftLengths, ← rightLengths] using same.length_eq

/-- Sets of one size are one when the elements of one are found in the other. -/
theorem set_eq_iff {left right : List Datum} (lengths : left.length = right.length)
    (distinct : left.Nodup) :
    set (arrange left) = set (arrange right) ↔ ∀ item ∈ left, item ∈ right := by
  rw [set.injEq, arrange_eq_iff_perm]
  constructor
  · exact fun perm item => perm.mem_iff.mp
  · exact fun subset => (List.subperm_of_subset distinct subset).perm_of_length_le lengths.ge

end Datum

namespace Value

variable {left right : Value}

theorem equalWithin_of_identical (identical : left.identical right = true) (fuel : Nat) :
    equalWithin (fuel + 1) left right = pure true := by
  unfold equalWithin
  exact if_pos identical

theorem equalWithin_of_rank_ne (different : left.typeRank ≠ right.typeRank) (fuel : Nat) :
    equalWithin (fuel + 1) left right = pure false := by
  unfold equalWithin
  rw [if_neg fun identical => different (typeRank_eq_of_identical identical)]
  split
  case h_1 => exact absurd rfl different
  split
  case h_1 leftContents rightContents =>
    rw [typeRank_of_mapEntries leftContents, typeRank_of_mapEntries rightContents] at different
    exact absurd rfl different
  split
  case h_1 leftContents rightContents =>
    rw [typeRank_of_setItems leftContents, typeRank_of_setItems rightContents] at different
    exact absurd rfl different
  split
  case isTrue kinds =>
    rcases Bool.and_eq_true_iff.mp kinds with ⟨leftKind, rightKind⟩
    rw [typeRank_of_isSequential leftKind, typeRank_of_isSequential rightKind] at different
    exact absurd rfl different
  case isFalse => rfl

/-- Leaves that are not identical are different, texts excepted. -/
theorem equalWithin_leaf {leftLeaf rightLeaf : Leaf} (leftKnown : left.leaf? = some leftLeaf)
    (rightKnown : right.leaf? = some rightLeaf) (distinct : left.identical right = false)
    (fuel : Nat) : equalWithin (fuel + 1) left right = pure (decide (leftLeaf = rightLeaf)) := by
  by_cases ranks : left.typeRank = right.typeRank
  case neg =>
    have different : leftLeaf ≠ rightLeaf := by
      rintro rfl
      exact ranks ((typeRank_of_leaf leftKnown).trans (typeRank_of_leaf rightKnown).symm)
    rw [equalWithin_of_rank_ne ranks, decide_eq_false different]
  case pos =>
    unfold equalWithin
    rw [if_neg (by simp [distinct])]
    cases left <;> cases leftKnown <;> cases right <;>
      first | (cases rightKnown; done) | (cases ranks; done) | cases rightKnown
    all_goals simp_all [identical, mapEntries?, setItems?, isSequential, Ref.index_inj]
    rfl

theorem equalWithin_sequences (leftKind : left.isSequential = true)
    (rightKind : right.isSequential = true) (distinct : left.identical right = false)
    (fuel : Nat) :
    equalWithin (fuel + 1) left right =
      equalSequences (equalWithin fuel) fuel left right := by
  unfold equalWithin
  rw [if_neg (by simp [distinct])]
  cases left <;> cases leftKind <;> cases right <;> cases rightKind <;> rfl

theorem equalWithin_maps {leftEntries rightEntries : List (Value × Value)}
    (leftContents : left.mapEntries? = some leftEntries)
    (rightContents : right.mapEntries? = some rightEntries)
    (distinct : left.identical right = false) (fuel : Nat) :
    equalWithin (fuel + 1) left right =
      equalMaps (equalWithin fuel) fuel leftEntries rightEntries right := by
  unfold equalWithin
  rw [if_neg (by simp [distinct])]
  cases left <;> cases leftContents <;> cases right <;> cases rightContents <;> rfl

theorem equalWithin_sets {leftItems rightItems : List Value}
    (leftContents : left.setItems? = some leftItems)
    (rightContents : right.setItems? = some rightItems)
    (distinct : left.identical right = false) (fuel : Nat) :
    equalWithin (fuel + 1) left right =
      equalSets (equalWithin fuel) fuel leftItems rightItems right := by
  unfold equalWithin
  rw [if_neg (by simp [distinct])]
  cases left <;> cases leftContents <;> cases right <;> cases rightContents <;> rfl

/-- Every test answers yes. -/
theorem forAll_ends_true {σ α : Type} [Preorder σ] {worldOf : σ → World} {machine : Machine}
    {point : σ} {test : α → Run Bool} {elements : List α}
    (tests : ∀ between, point ≤ between → ∀ element ∈ elements,
      Run.Ends worldOf machine between (test element) fun answer _ => answer = true) :
    Run.Ends worldOf machine point (forAll test elements) fun answer _ => answer = true := by
  induction elements generalizing point with
  | nil => exact Run.Ends.pure rfl
  | cons element rest induction =>
      apply (tests point (le_refl _) element (List.mem_cons_self ..)).bind
      rintro _ between le rfl
      apply induction
      intro last leLast other member
      exact tests last (le.trans leLast) other (List.mem_cons_of_mem _ member)

end Value

namespace Outlook

open Value (equalItems equalCursors equalSequences forAll lookupWith equalMaps equalSets
  equalWithin)

variable {machine : Machine} {σ : Type} [Preorder σ] {outlook : Outlook machine σ} {point : σ}
  {bound : Nat} {equal : Value → Value → Run Bool}

/-! ## Sequences -/

theorem equalItems_ends (equates : outlook.Equates point bound equal)
    {left right : List Value} {leftItems rightItems : List Datum}
    (readLeft : List.Forall₂ (outlook.ReadsWithin bound point) left leftItems)
    (readRight : List.Forall₂ (outlook.ReadsWithin bound point) right rightItems)
    (lengths : left.length = right.length) :
    outlook.Ends point (equalItems equal left right) fun answer _ =>
      outlook.Judges answer (leftItems = rightItems) := by
  induction left generalizing point right leftItems rightItems with
  | nil =>
      cases right with
      | cons => cases lengths
      | nil =>
          cases readLeft
          cases readRight
          exact Run.Ends.pure ⟨fun _ => rfl, fun _ _ => rfl⟩
  | cons value rest induction =>
      cases right with
      | nil => cases lengths
      | cons other others =>
          rcases List.forall₂_cons_left_iff.mp readLeft with
            ⟨datum, restData, read, readRest, rfl⟩
          rcases List.forall₂_cons_left_iff.mp readRight with
            ⟨otherDatum, otherData, readOther, readOthers, rfl⟩
          apply (equates point (le_refl _) read readOther).bind
          intro answer between le judges
          cases answer
          case true =>
            cases judges.1 rfl
            refine (induction (equates.from_later le)
              (readRest.imp fun _ _ => readsWithin_later le)
              (readOthers.imp fun _ _ => readsWithin_later le)
              (Nat.succ.inj lengths)).weaken ?_
            exact fun _ _ _ judgesRest => judgesRest.congr (by simp)
          case false => exact Run.Ends.pure (judges.of_imp fun same => (List.cons.inj same).1)

/-- Walks are equal if they meet the same and neither of them fails. -/
theorem equalCursors_ends (equates : outlook.Equates point bound equal)
    {leftWhole rightWhole : Bool} {leftItems rightItems : List Datum}
    (leftBound : ∀ item ∈ leftItems, item.cost ≤ bound)
    (rightBound : ∀ item ∈ rightItems, item.cost ≤ bound) {fuel : Nat}
    (within : leftItems.length < fuel) {left right : Cursor}
    (yieldsLeft : outlook.Yields point left leftWhole leftItems)
    (yieldsRight : outlook.Yields point right rightWhole rightItems) :
    outlook.Ends point (equalCursors equal fuel left right) fun answer _ =>
      outlook.Judges answer (leftWhole = true ∧ rightWhole = true ∧ leftItems = rightItems) := by
  induction leftItems generalizing point fuel left right rightItems with
  | nil =>
      rcases fuel with _ | fuel
      · cases within
      apply (next_ends yieldsLeft).bind
      intro leftStep between le leftSteps
      apply (next_ends (yields_later le yieldsRight)).bind
      intro rightStep after _ rightSteps
      cases leftSteps with
      | done =>
          cases rightSteps with
          | done => exact Run.Ends.pure ⟨fun _ => ⟨rfl, rfl, rfl⟩, fun _ _ => rfl⟩
          | failed | element => exact Run.Ends.pure (judges_false (by simp))
      | failed => cases rightSteps <;> exact Run.Ends.pure (judges_false (by simp))
  | cons leftDatum leftItems induction =>
      rcases fuel with _ | fuel
      · cases within
      apply (next_ends yieldsLeft).bind
      rintro _ between le (_ | _ | ⟨readLeft, yieldsLeftRest⟩)
      apply (next_ends (yields_later le yieldsRight)).bind
      rintro _ after leAfter (_ | _ | ⟨readRight, yieldsRightRest⟩)
      · exact Run.Ends.pure (judges_false (by simp))
      · exact Run.Ends.pure (judges_false (by simp))
      have goodLeft := leftBound leftDatum (List.mem_cons_self ..)
      have goodRight := rightBound _ (List.mem_cons_self ..)
      refine (equates after (le.trans leAfter)
        ⟨outlook.reads_later leAfter readLeft, goodLeft⟩ ⟨readRight, goodRight⟩).bind ?_
      intro answer last leLast judges
      cases answer
      case true =>
        cases judges.1 rfl
        refine (induction (equates.from_later (le.trans (leAfter.trans leLast)))
          (fun item member => leftBound item (List.mem_cons_of_mem _ member))
          (fun item member => rightBound item (List.mem_cons_of_mem _ member))
          (Nat.lt_of_succ_lt_succ within)
          (yields_later (leAfter.trans leLast) yieldsLeftRest)
          (yields_later leLast yieldsRightRest)).weaken ?_
        exact fun _ _ _ judgesRest => judgesRest.congr (by simp)
      case false =>
        exact Run.Ends.pure (judges.of_imp fun same => (List.cons.inj same.2.2).1)

theorem equalSequences_ends (equates : outlook.Equates point bound equal) {left right : Value}
    {leftWhole rightWhole : Bool} {leftItems rightItems : List Datum}
    (leftWalk : outlook.Walks point left leftWhole leftItems)
    (leftCosts : Datum.costAll leftItems ≤ bound)
    (rightWalk : outlook.Walks point right rightWhole rightItems)
    (rightCosts : Datum.costAll rightItems ≤ bound) {fuel : Nat}
    (within : leftItems.length < fuel) :
    outlook.Ends point (equalSequences equal fuel left right) fun answer _ =>
      outlook.Judges answer (leftWhole = true ∧ rightWhole = true ∧ leftItems = rightItems) := by
  unfold equalSequences
  split
  case h_1 leftElements rightElements leftIndexed rightIndexed =>
    rcases outlook.indexed leftWalk leftIndexed with ⟨rfl, readLeft⟩
    rcases outlook.indexed rightWalk rightIndexed with ⟨rfl, readRight⟩
    split
    case isTrue lengths =>
      refine (equalItems_ends equates (readsAllWithin readLeft leftCosts)
        (readsAllWithin readRight rightCosts) lengths).weaken ?_
      exact fun _ _ _ judges => judges.congr (by simp)
    case isFalse different =>
      refine Run.Ends.pure (judges_false ?_)
      rintro ⟨_, _, rfl⟩
      exact different (readLeft.length_eq.trans readRight.length_eq.symm)
  case h_2 =>
    exact equalCursors_ends equates
      (fun _ member => ((Datum.cost_lt_costAll member).trans_le leftCosts).le)
      (fun _ member => ((Datum.cost_lt_costAll member).trans_le rightCosts).le)
      within leftWalk rightWalk

/-- Two sequences, each other than the other one, are equal exactly if their items are. A walk
along one of them that fails makes a difference, as only the sequence itself would do. -/
theorem equalSequences_judge (equates : outlook.Equates point bound equal) {left right : Value}
    {leftItems rightItems : List Datum} (distinct : left.identical right = false)
    (readLeft : outlook.Reads point left (.sequence leftItems))
    (leftCosts : Datum.costAll leftItems ≤ bound)
    (readRight : outlook.Reads point right (.sequence rightItems))
    (rightCosts : Datum.costAll rightItems ≤ bound) {fuel : Nat}
    (within : leftItems.length < fuel) :
    outlook.Ends point (equalSequences equal fuel left right) fun answer _ =>
      outlook.Judges answer (Datum.sequence leftItems = Datum.sequence rightItems) := by
  cases outlook.standing readLeft with
  | @sequence leftWhole _ _ leftWalk _ leftAlone =>
  cases outlook.standing readRight with
  | @sequence rightWhole _ _ rightWalk _ rightAlone =>
  refine (equalSequences_ends equates leftWalk leftCosts rightWalk rightCosts within).weaken ?_
  intro answer _ _ judges
  refine ⟨fun yes => congrArg _ (judges.1 yes).2.2, ?_⟩
  rintro discerns ⟨⟩
  refine judges.2 discerns ⟨?_, ?_, rfl⟩
  · by_contra fails
    have alone := leftAlone discerns (by simpa using fails) _ readRight
    cases distinct.symm.trans alone
  · by_contra fails
    have alone := rightAlone discerns (by simpa using fails) _ readLeft
    cases distinct.symm.trans (Value.identical_symm alone)

/-! ## Maps and sets -/

theorem forAll_ends {α γ : Type} {test : α → Run Bool} (Good : σ → α → γ → Prop)
    (goodLater : ∀ {before after}, before ≤ after → ∀ element datum,
      Good before element datum → Good after element datum)
    (Holds : γ → Prop) {elements : List α} {data : List γ}
    (good : List.Forall₂ (Good point) elements data)
    (tests : ∀ between, point ≤ between → ∀ element, ∀ datum ∈ data,
      Good between element datum →
      outlook.Ends between (test element) fun answer _ => outlook.Judges answer (Holds datum)) :
    outlook.Ends point (forAll test elements) fun answer _ =>
      outlook.Judges answer (∀ datum ∈ data, Holds datum) := by
  induction elements generalizing point data with
  | nil =>
      cases good
      exact Run.Ends.pure ⟨fun _ _ => nofun, fun _ _ => rfl⟩
  | cons element rest induction =>
      rcases List.forall₂_cons_left_iff.mp good with ⟨datum, restData, first, goodRest, rfl⟩
      apply (tests point (le_refl _) element datum (List.mem_cons_self ..) first).bind
      intro answer between le judges
      cases answer
      case true =>
        refine (induction (goodRest.imp (goodLater le)) ?_).weaken ?_
        · intro last leLast other otherDatum member
          exact tests last (le.trans leLast) other otherDatum (List.mem_cons_of_mem _ member)
        · intro _ _ _ judgesRest
          exact judgesRest.congr (by simp [judges.1 rfl])
      case false =>
        exact Run.Ends.pure (judges.of_imp fun all => all datum (List.mem_cons_self ..))

/-- What is found among values that can be read can be read. -/
theorem lookup_reads (keys : List Datum) {values : List Value} {data : List Datum}
    (read : List.Forall₂ (outlook.Reads point) values data) (key : Datum) :
    (Keyed.ofKeys keys values).lookup key = none ∧ (Keyed.ofKeys keys data).lookup key = none ∨
      ∃ value, ∃ datum ∈ data, (Keyed.ofKeys keys values).lookup key = some value ∧
        (Keyed.ofKeys keys data).lookup key = some datum ∧ outlook.Reads point value datum := by
  induction keys generalizing values data with
  | nil => exact .inl ⟨rfl, rfl⟩
  | cons first keys induction =>
      cases read with
      | nil => exact .inl ⟨rfl, rfl⟩
      | @cons value datum values data readFirst readRest =>
          change (List.lookup key ((first, value) :: Keyed.ofKeys keys values)) = none ∧
              (List.lookup key ((first, datum) :: Keyed.ofKeys keys data)) = none ∨
            ∃ found, ∃ foundDatum ∈ datum :: data,
              (List.lookup key ((first, value) :: Keyed.ofKeys keys values)) = some found ∧
              (List.lookup key ((first, datum) :: Keyed.ofKeys keys data)) = some foundDatum ∧
              outlook.Reads point found foundDatum
          rw [List.lookup_cons, List.lookup_cons]
          cases key == first
          case true => exact .inr ⟨value, datum, List.mem_cons_self .., rfl, rfl, readFirst⟩
          case false =>
            apply (induction readRest).imp_right
            rintro ⟨found, foundDatum, member, rest⟩
            exact ⟨found, foundDatum, List.mem_cons_of_mem _ member, rest⟩

section

variable {left right : Value}

/-- One entry of a map is sought in the other map. -/
theorem equalEntry_ends (remembers : outlook.RemembersWithin bound point) {fuel : Nat}
    (within : bound ≤ fuel) (equates : outlook.Equates point bound equal)
    {entries : List (Value × Value)}
    {keys values : List Datum} (contents : right.mapEntries? = some entries)
    (readKeys : List.Forall₂ (outlook.Reads point) (entries.map Prod.fst) keys)
    (readValues : List.Forall₂ (outlook.Reads point) (entries.map Prod.snd) values)
    (lawful : right.IsLawful (outlook.world point) keys)
    (costs : ∀ datum, datum ∈ keys ∨ datum ∈ values → datum.cost ≤ bound)
    {entry : Value × Value} {key value : Datum} (read : outlook.ReadsEntry point entry (key, value))
    (keyCost : key.cost ≤ bound) (valueCost : value.cost ≤ bound) :
    outlook.Ends point
      (do
        match ← lookupWith equal fuel right entry.1 with
        | some found => equal found entry.2
        | none => return false)
      fun answer _ =>
        outlook.Judges answer ((Keyed.ofKeys keys values).lookup key = some value) := by
  rcases read with ⟨readKey, readValue⟩
  have looks := outlook.lookupWith_ends remembers within equates ⟨readKey, keyCost⟩ contents
    readKeys (fun key member => costs key (.inl member)) lawful
  apply looks.bind
  intro answer after le finds
  rcases lookup_reads keys (readsAll_later le readValues) key with
    ⟨stored, missing⟩ | ⟨other, datum, inValues, stored, present, readOther⟩
  · rw [stored] at finds
    cases answer with
    | none => exact Run.Ends.pure (judges_false (by simp [missing]))
    | some found => cases finds.1 found rfl
  · rw [stored] at finds
    cases answer with
    | none => exact Run.Ends.pure ⟨nofun, fun discerns _ => nomatch finds.2 discerns⟩
    | some found =>
        cases finds.1 found rfl
        refine (equates after le ⟨readOther, costs datum (.inr inValues)⟩
          ⟨outlook.reads_later le readValue, valueCost⟩).weaken ?_
        exact fun _ _ _ judges => judges.congr (by simp [present])

theorem equalMaps_ends (remembers : outlook.RemembersWithin bound point)
    {fuel : Nat} (within : bound ≤ fuel) (equates : outlook.Equates point bound equal)
    {leftData rightData : List Datum}
    {leftEntries rightEntries : List (Value × Value)}
    (readLeft : outlook.Reads point left (.map leftData))
    (leftContents : left.mapEntries? = some leftEntries)
    (leftCosts : Datum.costAll leftData ≤ bound)
    (readRight : outlook.Reads point right (.map rightData))
    (rightContents : right.mapEntries? = some rightEntries)
    (rightCosts : Datum.costAll rightData ≤ bound) :
    outlook.Ends point (equalMaps equal fuel leftEntries rightEntries right)
      fun answer _ => outlook.Judges answer (Datum.map leftData = Datum.map rightData) := by
  cases outlook.standing readLeft with
  | @map _ leftKeys leftValues contents readLeftKeys readLeftValues leftLawful =>
  cases leftContents.symm.trans contents
  cases outlook.standing readRight with
  | @map _ rightKeys rightValues contents readRightKeys readRightValues rightLawful =>
  cases rightContents.symm.trans contents
  have leftLengths := length_keys_eq readLeftKeys readLeftValues
  have rightLengths := length_keys_eq readRightKeys readRightValues
  have leftLength : leftEntries.length = leftKeys.length := by
    rw [← readLeftKeys.length_eq, List.length_map]
  have rightLength : rightEntries.length = rightKeys.length := by
    rw [← readRightKeys.length_eq, List.length_map]
  have leftDistinct := leftLawful.nodup (left.table_of_mapEntries leftContents)
  have rightDistinct := rightLawful.nodup (right.table_of_mapEntries rightContents)
  rw [Datum.costAll_arrange] at leftCosts rightCosts
  have leftCost : ∀ datum, datum ∈ leftKeys ∨ datum ∈ leftValues → datum.cost ≤ bound :=
    fun datum member => ((Datum.cost_lt_costAll_entries leftLengths member).trans_le leftCosts).le
  have rightCost : ∀ datum, datum ∈ rightKeys ∨ datum ∈ rightValues → datum.cost ≤ bound :=
    fun datum member =>
      ((Datum.cost_lt_costAll_entries rightLengths member).trans_le rightCosts).le
  unfold equalMaps
  split
  case isFalse different =>
    refine Run.Ends.pure (judges_false ?_)
    intro same
    rw [leftLength, rightLength] at different
    exact different (Datum.length_eq_of_map_eq leftLengths rightLengths same)
  case isTrue lengths =>
    rw [leftLength, rightLength] at lengths
    refine (forAll_ends outlook.ReadsEntry readsEntry_later
      (fun pair => (Keyed.ofKeys rightKeys rightValues).lookup pair.1 = some pair.2)
      (readsEntries readLeftKeys readLeftValues) ?_).weaken ?_
    · rintro between le entry ⟨key, value⟩ member read
      exact equalEntry_ends (remembers.later le) within (equates.from_later le)
        rightContents (readsAll_later le readRightKeys)
        (readsAll_later le readRightValues) (lawful_later le readRight rightLawful)
        rightCost read (leftCost key (.inl (List.of_mem_zip member).1))
        (leftCost value (.inr (List.of_mem_zip member).2))
    · exact fun _ _ _ judges => judges.congr
        (Datum.map_eq_iff leftLengths rightLengths lengths leftDistinct rightDistinct).symm

theorem equalSets_ends (remembers : outlook.RemembersWithin bound point)
    {fuel : Nat} (within : bound ≤ fuel) (equates : outlook.Equates point bound equal)
    {leftData rightData : List Datum}
    {leftItems rightItems : List Value} (readLeft : outlook.Reads point left (.set leftData))
    (leftContents : left.setItems? = some leftItems)
    (leftCosts : Datum.costAll leftData ≤ bound)
    (readRight : outlook.Reads point right (.set rightData))
    (rightContents : right.setItems? = some rightItems)
    (rightCosts : Datum.costAll rightData ≤ bound) :
    outlook.Ends point (equalSets equal fuel leftItems rightItems right)
      fun answer _ => outlook.Judges answer (Datum.set leftData = Datum.set rightData) := by
  cases outlook.standing readLeft with
  | @set _ leftData contents readLeftItems leftLawful =>
  cases leftContents.symm.trans contents
  cases outlook.standing readRight with
  | @set _ rightData contents readRightItems rightLawful =>
  cases rightContents.symm.trans contents
  have leftDistinct := leftLawful.nodup (left.table_of_setItems leftContents)
  rw [Datum.costAll_arrange] at leftCosts rightCosts
  unfold equalSets
  rw [readLeftItems.length_eq, readRightItems.length_eq]
  split
  case isFalse different =>
    refine Run.Ends.pure (judges_false ?_)
    intro same
    rw [Datum.set.injEq, Datum.arrange_eq_iff_perm] at same
    exact different same.length_eq
  case isTrue lengths =>
    refine (forAll_ends outlook.Reads (fun le _ _ => outlook.reads_later le)
      (fun datum => datum ∈ rightData) readLeftItems ?_).weaken ?_
    · intro between le item datum member read
      have cost := Datum.cost_lt_costAll member
      exact outlook.memberWith_ends (remembers.later le) within (equates.from_later le)
        ⟨read, by omega⟩ rightContents (readsAll_later le readRightItems)
        (fun item member => ((Datum.cost_lt_costAll member).trans_le rightCosts).le)
        (lawful_later le readRight rightLawful)
    · exact fun _ _ _ judges => judges.congr (Datum.set_eq_iff lengths leftDistinct).symm

end

/-! ## All values -/

variable (outlook) in
/-- Values are equal as their data are. Equality never looks at the hashes of the
maps themselves, but it may look at those of whatever is inside. -/
theorem equalWithin_equates {bound : Nat} (remembers : outlook.RemembersWithin bound point)
    {fuel : Nat} (within : bound + 1 ≤ fuel) :
    outlook.Equates point (bound + 1) (equalWithin fuel) := by
  induction fuel generalizing point bound with
  | zero => cases within
  | succ fuel induction =>
      rintro between le left right leftDatum rightDatum ⟨readLeft, leftWithin⟩
        ⟨readRight, rightWithin⟩
      have later := remembers.later le
      have inner : outlook.Equates between bound (equalWithin fuel) := by
        rcases bound with _ | bound
        · rintro _ _ _ _ datum _ ⟨_, tooMuch⟩
          exact absurd tooMuch (Nat.not_le_of_lt datum.cost_pos)
        · exact induction (later.weaken (Nat.le_succ _)) (by omega)
      cases identical : left.identical right
      case true =>
        rw [Value.equalWithin_of_identical identical]
        exact Run.Ends.pure
          ⟨fun _ => eq_of_identical readLeft readRight identical, fun _ _ => rfl⟩
      case false =>
        by_cases ranks : leftDatum.rank = rightDatum.rank
        case neg =>
          have typeRanks := ranks
          rw [← (outlook.standing readLeft).typeRank_eq,
            ← (outlook.standing readRight).typeRank_eq] at typeRanks
          rw [Value.equalWithin_of_rank_ne typeRanks]
          exact Run.Ends.pure (judges_false (ranks <| congrArg Datum.rank ·))
        case pos =>
          cases Datum.sameKind_of_rank_eq ranks with
          | leaves =>
              cases outlook.standing readLeft with
              | leaf leftKnown =>
                  cases outlook.standing readRight with
                  | leaf rightKnown =>
                      rw [Value.equalWithin_leaf leftKnown rightKnown identical]
                      exact Run.Ends.pure ((judges_decide _).congr (by simp))
          | sequences leftItems rightItems =>
              simp only [Datum.cost] at leftWithin rightWithin
              cases outlook.standing readLeft with
              | sequence leftKind =>
                  cases outlook.standing readRight with
                  | sequence rightKind =>
                      rw [Value.equalWithin_sequences leftKind rightKind identical]
                      have := Datum.length_le_costAll leftItems
                      exact equalSequences_judge inner identical readLeft (by omega) readRight
                        (by omega) (by omega)
          | maps =>
              simp only [Datum.cost] at leftWithin rightWithin
              rcases (outlook.standing readLeft).mapEntries with ⟨leftEntries, leftContents⟩
              rcases (outlook.standing readRight).mapEntries with ⟨rightEntries, rightContents⟩
              rw [Value.equalWithin_maps leftContents rightContents identical]
              exact equalMaps_ends later (by omega) inner readLeft leftContents
                (by omega) readRight rightContents (by omega)
          | sets =>
              simp only [Datum.cost] at leftWithin rightWithin
              rcases (outlook.standing readLeft).setItems with ⟨leftItems, leftContents⟩
              rcases (outlook.standing readRight).setItems with ⟨rightItems, rightContents⟩
              rw [Value.equalWithin_sets leftContents rightContents identical]
              exact equalSets_ends later (by omega) inner readLeft leftContents
                (by omega) readRight rightContents (by omega)

end Outlook

/-! ## At moments -/

namespace Value

variable {machine : Machine} {moment : Moment}

theorem forAll_true {α : Type} {test : α → Run Bool} {elements : List α}
    (tests : ∀ between, moment ≤ between → ∀ element ∈ elements,
      Gives machine between (test element) fun answer _ => answer = true) :
    Gives machine moment (forAll test elements) fun answer _ => answer = true :=
  forAll_ends_true tests

theorem equalWithin_equates {bound : Nat} (remembers : moment.RemembersWithin bound)
    (enough : 0 < machine.limit) {fuel : Nat} (within : bound + 1 ≤ fuel) :
    Equates machine moment (bound + 1) (equalWithin fuel) :=
  fun between le _ _ _ _ readLeft readRight =>
    ((Moment.outlook enough).equalWithin_equates remembers within between le readLeft
      readRight).weaken fun _ _ _ judges => judges.eq_decide trivial

end Value

end LispRuntime
