import LispRuntime.Proofs.Reading.Outlook
import LispRuntime.Value.Comparison

/-! Values are ordered as the data that they stand for. Maps and sets are sorted
first, with the order that is being computed: as long as that is the order of the
data, sorting arranges the data. A walk that fails is over for the order. -/

namespace LispRuntime

namespace Value

/-! ## Leaves -/

theorem compare_booleans (left right : Bool) :
    compareBooleans left right = (Leaf.boolean left).compare (.boolean right) := by
  cases left <;> cases right <;> rfl

theorem compare_reals (left right : Real64) :
    left.compare right = (Leaf.real left).compare (.real right) := by
  have rank : (Leaf.real left).rank = (Leaf.real right).rank := rfl
  simp [Leaf.compare_of_rank_eq rank, Leaf.detail, List.compare_cons_cons, Real64.compare]

/-- On a tie the integer is first. -/
theorem compare_integer_real (left : Int64) (right : Real64) :
    ((Real64.ofInteger left).compare right).then .lt =
      (Leaf.integer left).compare (.real right) := by
  have rank : (Leaf.integer left).rank = (Leaf.real right).rank := rfl
  simp [Leaf.compare_of_rank_eq rank, Leaf.detail, List.compare_cons_cons, Real64.compare]
  rfl

theorem compare_real_integer (left : Real64) (right : Int64) :
    (left.compare (Real64.ofInteger right)).then .gt =
      (Leaf.real left).compare (.integer right) := by
  have rank : (Leaf.real left).rank = (Leaf.integer right).rank := rfl
  simp [Leaf.compare_of_rank_eq rank, Leaf.detail, List.compare_cons_cons, Real64.compare]
  rfl

theorem compare_characters (left right : Char) :
    Ord.compare left.toNat right.toNat = (Leaf.character left).compare (.character right) := by
  have rank : (Leaf.character left).rank = (Leaf.character right).rank := rfl
  simp [Leaf.compare_of_rank_eq rank, Leaf.detail, List.compare_cons_cons,
    OrderKey.compare_cast]

theorem compare_strings (left right : String) :
    compareText left right = (Leaf.string left).compare (.string right) := by
  have rank : (Leaf.string left).rank = (Leaf.string right).rank := rfl
  simp [Leaf.compare_of_rank_eq rank, Leaf.detail, List.compare_cons_cons,
    OrderKey.compare_ofText]

theorem compare_symbols (left right : Symbol) :
    left.compare right = (Leaf.symbol left).compare (.symbol right) := by
  have rank : (Leaf.symbol left).rank = (Leaf.symbol right).rank := rfl
  simp [Leaf.compare_of_rank_eq rank, Leaf.detail, List.compare_cons_cons,
    OrderKey.compare_ofText, OrderKey.compare_ofOptional, Symbol.compare]

theorem compare_keywords (left right : Keyword) :
    left.compare right = (Leaf.keyword left).compare (.keyword right) := by
  have rank : (Leaf.keyword left).rank = (Leaf.keyword right).rank := rfl
  simp [Leaf.compare_of_rank_eq rank, Leaf.detail, List.compare_cons_cons,
    OrderKey.compare_ofText, OrderKey.compare_ofOptional, Keyword.compare, Symbol.compare]

theorem compare_references (kind : ReferenceKind) (left right : Nat) :
    Ord.compare left right = (Leaf.reference kind left).compare (.reference kind right) := by
  have rank : (Leaf.reference kind left).rank = (Leaf.reference kind right).rank := rfl
  simp [Leaf.compare_of_rank_eq rank, Leaf.detail, List.compare_cons_cons,
    OrderKey.compare_cast]

/-- Integers become reals in order, and those that become one real are told
apart by themselves. -/
theorem compare_integers (left right : Int64) :
    Ord.compare left.toInt right.toInt = (Leaf.integer left).compare (.integer right) := by
  have rank : (Leaf.integer left).rank = (Leaf.integer right).rank := rfl
  have below := @Real64.rank_ofInteger_mono left right
  have above := @Real64.rank_ofInteger_mono right left
  rw [Leaf.compare_of_rank_eq rank]
  simp only [Leaf.detail, List.compare_cons_cons]
  generalize (Real64.ofInteger left).rank = leftRank at below above
  generalize (Real64.ofInteger right).rank = rightRank at below above
  rcases Int.lt_trichotomy left.toInt right.toInt with less | same | greater
  · rw [Int.compare_eq_lt.mpr less]
    rcases Int.lt_or_eq_of_le (below less.le) with ranks | ranks
    · rw [Int.compare_eq_lt.mpr ranks]
      rfl
    · simp [ranks]
  · simp [same, Int.le_antisymm (below same.le) (above same.ge)]
  · rw [Int.compare_eq_gt.mpr greater]
    rcases Int.lt_or_eq_of_le (above greater.le) with ranks | ranks
    · rw [Int.compare_eq_gt.mpr ranks]
      rfl
    · simp [ranks]

theorem compareWithin_of_rank_ne {left right : Value}
    (different : left.typeRank ≠ right.typeRank) (fuel : Nat) :
    compareWithin (fuel + 1) left right =
      pure (Ord.compare left.typeRank right.typeRank) := by
  unfold compareWithin
  exact if_pos different

theorem compareWithin_leaf {left right : Value} {leftLeaf rightLeaf : Leaf}
    (leftKnown : left.leaf? = some leftLeaf) (rightKnown : right.leaf? = some rightLeaf)
    (fuel : Nat) : compareWithin (fuel + 1) left right = pure (leftLeaf.compare rightLeaf) := by
  by_cases ranks : left.typeRank = right.typeRank
  · cases left <;> cases leftKnown <;> cases right <;>
      first | (cases rightKnown; done) | (cases ranks; done) | cases rightKnown
    · rfl
    · exact congrArg pure (compare_booleans _ _)
    · exact congrArg pure (compare_integers _ _)
    · exact congrArg pure (compare_integer_real _ _)
    · exact congrArg pure (compare_real_integer _ _)
    · exact congrArg pure (compare_reals _ _)
    · exact congrArg pure (compare_characters _ _)
    · exact congrArg pure (compare_strings _ _)
    · exact congrArg pure (compare_symbols _ _)
    · exact congrArg pure (compare_keywords _ _)
    all_goals exact congrArg pure (compare_references _ _ _)
  · rw [compareWithin_of_rank_ne ranks, typeRank_of_leaf leftKnown,
      typeRank_of_leaf rightKnown] at *
    rw [Leaf.compare_of_rank_ne ranks]

/-! ## Values with elements -/

section

variable {left right : Value}

theorem compareWithin_sequences (leftKind : left.isSequential = true)
    (rightKind : right.isSequential = true) (fuel : Nat) :
    compareWithin (fuel + 1) left right =
      compareCursors (compareWithin fuel) fuel (.pending left) (.pending right) := by
  cases left <;> cases leftKind <;> cases right <;> cases rightKind <;> rfl

theorem compareWithin_maps {leftEntries rightEntries : List (Value × Value)}
    (leftContents : left.mapEntries? = some leftEntries)
    (rightContents : right.mapEntries? = some rightEntries) (fuel : Nat) :
    compareWithin (fuel + 1) left right =
      compareSorted (comparePairs (compareWithin fuel)) leftEntries rightEntries := by
  cases left <;> cases leftContents <;> cases right <;> cases rightContents <;> rfl

theorem compareWithin_sets {leftItems rightItems : List Value}
    (leftContents : left.setItems? = some leftItems)
    (rightContents : right.setItems? = some rightItems) (fuel : Nat) :
    compareWithin (fuel + 1) left right =
      compareSorted (compareWithin fuel) leftItems rightItems := by
  cases left <;> cases leftContents <;> cases right <;> cases rightContents <;> rfl

end

end Value

namespace Outlook

variable {machine : Machine} {σ : Type} [Preorder σ] {outlook : Outlook machine σ} {point : σ}

/-! ## Sorting -/

/-- Elements stand for data, and the comparison orders them as it orders the data. -/
structure Orders {α : Type} (outlook : Outlook machine σ) (point : σ)
    (Good : σ → α → Datum → Prop) (compare : α → α → Run Ordering) : Prop where
  later : ∀ {before after}, before ≤ after → ∀ element datum,
    Good before element datum → Good after element datum
  ends : ∀ between, point ≤ between → ∀ {left right leftDatum rightDatum},
    Good between left leftDatum → Good between right rightDatum →
    outlook.Ends between (compare left right) fun order _ =>
      order = leftDatum.compare rightDatum

namespace Orders

variable {α : Type} {Good : σ → α → Datum → Prop} {compare : α → α → Run Ordering}

theorem from_later (orders : outlook.Orders point Good compare) {between : σ}
    (le : point ≤ between) : outlook.Orders between Good compare where
  later := orders.later
  ends last leLast := orders.ends last (le.trans leLast)

theorem all_later (orders : outlook.Orders point Good compare) {before after : σ}
    (le : before ≤ after) {elements : List α} {data : List Datum}
    (good : List.Forall₂ (Good before) elements data) :
    List.Forall₂ (Good after) elements data :=
  good.imp fun element datum => orders.later le element datum

theorem insertOrdered_ends (orders : outlook.Orders point Good compare) {element : α}
    {datum : Datum} (good : Good point element datum) {sorted : List α} {data : List Datum}
    (goodSorted : List.Forall₂ (Good point) sorted data) (ascending : data.Pairwise (· ≤ ·)) :
    outlook.Ends point (insertOrdered compare element sorted) fun answer after =>
      ∃ inserted, List.Forall₂ (Good after) answer inserted ∧
        inserted.Perm (datum :: data) ∧ inserted.Pairwise (· ≤ ·) := by
  induction sorted generalizing point data with
  | nil =>
      cases goodSorted
      exact Run.Ends.pure ⟨[datum], .cons good .nil, .refl _, List.pairwise_singleton _ _⟩
  | cons head tail induction =>
      rcases List.forall₂_cons_left_iff.mp goodSorted with
        ⟨headDatum, tailData, goodHead, goodTail, rfl⟩
      have tailAscending := (List.pairwise_cons.mp ascending).2
      have headFirst := (List.pairwise_cons.mp ascending).1
      apply (orders.ends point (le_refl _) goodHead good).bind
      rintro _ between le rfl
      cases order : headDatum.compare datum
      case gt =>
        have before : datum ≤ headDatum := by
          change (datum.compare headDatum).isLE
          rw [Datum.compare_swap, order]
          rfl
        refine Run.Ends.pure ⟨datum :: headDatum :: tailData,
          .cons (orders.later le _ _ good)
            (.cons (orders.later le _ _ goodHead) (orders.all_later le goodTail)),
          .refl _, List.pairwise_cons.mpr ⟨?_, ascending⟩⟩
        intro other member
        rcases List.mem_cons.mp member with rfl | member
        · exact before
        · exact before.trans (headFirst other member)
      case lt | eq =>
        have before : headDatum ≤ datum := by
          change (headDatum.compare datum).isLE
          rw [order]
          rfl
        refine (induction (orders.from_later le) (orders.later le _ _ good)
          (orders.all_later le goodTail) tailAscending).bind ?_
        rintro rest after leAfter ⟨inserted, goodInserted, perm, insertedAscending⟩
        refine Run.Ends.pure ⟨headDatum :: inserted,
          .cons (orders.later (le.trans leAfter) _ _ goodHead) goodInserted,
          (perm.cons headDatum).trans (.swap ..), List.pairwise_cons.mpr ⟨?_, insertedAscending⟩⟩
        intro other member
        rcases List.mem_cons.mp (perm.mem_iff.mp member) with rfl | member
        · exact before
        · exact headFirst other member

/-- Sorting arranges the data. -/
theorem sortOrdered_ends (orders : outlook.Orders point Good compare) {elements : List α}
    {data : List Datum} (good : List.Forall₂ (Good point) elements data) :
    outlook.Ends point (sortOrdered compare elements) fun sorted after =>
      List.Forall₂ (Good after) sorted (Datum.arrange data) := by
  have fold : ∀ sorted sortedData, List.Forall₂ (Good point) sorted sortedData →
      sortedData.Pairwise (· ≤ ·) →
      outlook.Ends point
        (elements.foldlM (fun sorted element => insertOrdered compare element sorted) sorted)
        fun answer after => ∃ all, List.Forall₂ (Good after) answer all ∧
          all.Perm (data ++ sortedData) ∧ all.Pairwise (· ≤ ·) := by
    induction elements generalizing point data with
    | nil =>
        intro sorted sortedData goodSorted ascending
        cases good
        exact Run.Ends.pure ⟨sortedData, goodSorted, .refl _, ascending⟩
    | cons element rest induction =>
        intro sorted sortedData goodSorted ascending
        rcases List.forall₂_cons_left_iff.mp good with
          ⟨datum, restData, goodElement, goodRest, rfl⟩
        rw [List.foldlM_cons]
        apply (orders.insertOrdered_ends goodElement goodSorted ascending).bind
        rintro longer between le ⟨inserted, goodInserted, perm, insertedAscending⟩
        refine (induction (orders.from_later le) (orders.all_later le goodRest) longer inserted
          goodInserted insertedAscending).weaken ?_
        rintro answer after _ ⟨all, goodAll, permAll, allAscending⟩
        refine ⟨all, goodAll, permAll.trans ?_, allAscending⟩
        exact (perm.append_left restData).trans List.perm_middle
  apply (fold [] [] .nil .nil).weaken
  rintro sorted after _ ⟨all, goodAll, perm, ascending⟩
  rw [List.append_nil] at perm
  rwa [Datum.arrange_eq_of_perm_of_sorted perm ascending]

theorem compareLists_ends (orders : outlook.Orders point Good compare)
    {left right : List α} {leftData rightData : List Datum}
    (goodLeft : List.Forall₂ (Good point) left leftData)
    (goodRight : List.Forall₂ (Good point) right rightData) :
    outlook.Ends point (compareLists compare left right) fun order _ =>
      order = Datum.compareItems leftData rightData := by
  induction left generalizing point right leftData rightData with
  | nil =>
      cases goodLeft
      cases goodRight <;> exact Run.Ends.pure rfl
  | cons head tail induction =>
      rcases List.forall₂_cons_left_iff.mp goodLeft with
        ⟨headDatum, tailData, goodHead, goodTail, rfl⟩
      cases goodRight with
      | nil => exact Run.Ends.pure rfl
      | @cons other otherDatum rest restData goodOther goodRest =>
          apply (orders.ends point (le_refl _) goodHead goodOther).bind
          rintro order between le same
          rw [Datum.compareItems, ← same]
          cases order
          case eq =>
            exact induction (orders.from_later le) (orders.all_later le goodTail)
              (orders.all_later le goodRest)
          case lt | gt => exact Run.Ends.pure rfl

/-- Sizes decide, and then the arranged data. -/
theorem compareSorted_ends (orders : outlook.Orders point Good compare)
    {left right : List α} {leftData rightData : List Datum}
    (goodLeft : List.Forall₂ (Good point) left leftData)
    (goodRight : List.Forall₂ (Good point) right rightData) :
    outlook.Ends point (compareSorted compare left right) fun order _ =>
      order = (Ord.compare (Datum.arrange leftData).length (Datum.arrange rightData).length).then
        (Datum.compareItems (Datum.arrange leftData) (Datum.arrange rightData)) := by
  apply (orders.sortOrdered_ends goodLeft).bind
  intro leftSorted between le goodLeftSorted
  apply ((orders.from_later le).sortOrdered_ends (orders.all_later le goodRight)).bind
  intro rightSorted after leAfter goodRightSorted
  rw [goodLeftSorted.length_eq, goodRightSorted.length_eq]
  cases Ord.compare (Datum.arrange leftData).length (Datum.arrange rightData).length
  case eq =>
    exact (orders.from_later (le.trans leAfter)).compareLists_ends
      (orders.all_later leAfter goodLeftSorted) goodRightSorted
  case lt | gt => exact Run.Ends.pure rfl

end Orders

/-- Reading a key and a value, each of which costs no more than some bound. -/
def ReadsEntryWithin (outlook : Outlook machine σ) (bound : Nat) (point : σ)
    (entry : Value × Value) (datum : Datum) : Prop :=
  ∃ key value, datum = Datum.entry key value ∧
    outlook.ReadsWithin bound point entry.1 key ∧ outlook.ReadsWithin bound point entry.2 value

theorem readsEntriesWithin {bound : Nat} {entries : List (Value × Value)}
    {keys values : List Datum}
    (readKeys : List.Forall₂ (outlook.Reads point) (entries.map Prod.fst) keys)
    (readValues : List.Forall₂ (outlook.Reads point) (entries.map Prod.snd) values)
    (within : Datum.costAll (List.zipWith Datum.entry keys values) ≤ bound) :
    List.Forall₂ (outlook.ReadsEntryWithin bound point) entries
      (List.zipWith Datum.entry keys values) := by
  have lengths := length_keys_eq readKeys readValues
  have costs : ∀ datum, datum ∈ keys ∨ datum ∈ values → datum.cost ≤ bound :=
    fun datum member => ((Datum.cost_lt_costAll_entries lengths member).trans_le within).le
  rw [← List.map_uncurry_zip_eq_zipWith]
  apply List.forall₂_map_right_iff.mpr
  clear within lengths
  induction entries generalizing keys values with
  | nil =>
      cases readKeys
      exact .nil
  | cons entry rest induction =>
      cases readKeys with
      | cons key otherKeys =>
          cases readValues with
          | cons value otherValues =>
              refine .cons ⟨_, _, rfl, ⟨key, costs _ (.inl (List.mem_cons_self ..))⟩,
                ⟨value, costs _ (.inr (List.mem_cons_self ..))⟩⟩ ?_
              exact induction otherKeys otherValues fun datum member =>
                costs datum (member.imp (List.mem_cons_of_mem _) (List.mem_cons_of_mem _))

open Value (compareWithin compareCursors)

theorem comparePairs_orders {bound : Nat} {compare : Value → Value → Run Ordering}
    (orders : outlook.Orders point (outlook.ReadsWithin bound) compare) :
    outlook.Orders point (outlook.ReadsEntryWithin bound) (comparePairs compare) where
  later le entry _ := by
    rintro ⟨key, value, rfl, readKey, readValue⟩
    exact ⟨key, value, rfl, orders.later le _ _ readKey, orders.later le _ _ readValue⟩
  ends between le left right leftDatum rightDatum := by
    rintro ⟨leftKey, leftValue, rfl, readLeftKey, readLeftValue⟩
    rintro ⟨rightKey, rightValue, rfl, readRightKey, readRightValue⟩
    have entries : (Datum.entry leftKey leftValue).compare (Datum.entry rightKey rightValue) =
        (leftKey.compare rightKey).then (leftValue.compare rightValue) := by
      simp [Datum.entry, Datum.compare, Datum.compareItems]
    rw [entries]
    apply (orders.ends between le readLeftKey readRightKey).bind
    rintro order later leLater same
    rw [← same]
    cases order
    case eq =>
      exact orders.ends later (le.trans leLater) (orders.later leLater _ _ readLeftValue)
        (orders.later leLater _ _ readRightValue)
    case lt | gt => exact Run.Ends.pure rfl

theorem compareCursors_ends {bound : Nat}
    {compare : Value → Value → Run Ordering}
    (orders : outlook.Orders point (outlook.ReadsWithin bound) compare)
    {leftWhole rightWhole : Bool} {leftItems rightItems : List Datum}
    (leftBound : ∀ item ∈ leftItems, item.cost ≤ bound)
    (rightBound : ∀ item ∈ rightItems, item.cost ≤ bound) {fuel : Nat}
    (within : leftItems.length < fuel) {left right : Cursor}
    (yieldsLeft : outlook.Yields point left leftWhole leftItems)
    (yieldsRight : outlook.Yields point right rightWhole rightItems) :
    outlook.Ends point (compareCursors compare fuel left right) fun order _ =>
      order = Datum.compareItems leftItems rightItems := by
  induction leftItems generalizing point fuel left right rightItems with
  | nil =>
      rcases fuel with _ | fuel
      · cases within
      apply (nextElement_ends yieldsLeft).bind
      rintro _ between le ⟨⟩
      apply (nextElement_ends (yields_later le yieldsRight)).bind
      rintro _ after _ (_ | _) <;> exact Run.Ends.pure rfl
  | cons leftDatum leftItems induction =>
      rcases fuel with _ | fuel
      · cases within
      apply (nextElement_ends yieldsLeft).bind
      rintro _ between le (_ | ⟨readLeft, yieldsLeftRest⟩)
      apply (nextElement_ends (yields_later le yieldsRight)).bind
      rintro _ after leAfter (_ | ⟨readRight, yieldsRightRest⟩)
      · exact Run.Ends.pure rfl
      have goodLeft := leftBound leftDatum (List.mem_cons_self ..)
      have goodRight := rightBound _ (List.mem_cons_self ..)
      refine (orders.ends after (le.trans leAfter)
        ⟨outlook.reads_later leAfter readLeft, goodLeft⟩ ⟨readRight, goodRight⟩).bind ?_
      rintro order last leLast same
      rw [Datum.compareItems, ← same]
      cases order
      case lt | gt => exact Run.Ends.pure rfl
      case eq =>
        exact induction (orders.from_later (le.trans (leAfter.trans leLast)))
          (fun item member => leftBound item (List.mem_cons_of_mem _ member))
          (fun item member => rightBound item (List.mem_cons_of_mem _ member))
          (Nat.lt_of_succ_lt_succ within)
          (yields_later (leAfter.trans leLast) yieldsLeftRest)
          (yields_later leLast yieldsRightRest)

/-! ## All values -/

private theorem compareWithin_orders_fuel (fuel : Nat) :
    outlook.Orders point (outlook.ReadsWithin fuel) (compareWithin fuel) := by
  induction fuel generalizing point with
  | zero =>
      refine ⟨fun le _ _ read => readsWithin_later le read, ?_⟩
      rintro between _ left right leftDatum rightDatum ⟨_, within⟩
      exact absurd within (Nat.not_le_of_lt leftDatum.cost_pos)
  | succ fuel induction =>
      refine ⟨fun le _ _ read => readsWithin_later le read, ?_⟩
      rintro between _ left right leftDatum rightDatum ⟨readLeft, leftWithin⟩
        ⟨readRight, rightWithin⟩
      by_cases ranks : leftDatum.rank = rightDatum.rank
      case neg =>
        have typeRanks := ranks
        rw [← (outlook.standing readLeft).typeRank_eq,
          ← (outlook.standing readRight).typeRank_eq] at typeRanks
        rw [Value.compareWithin_of_rank_ne typeRanks, Datum.compare_of_rank_ne ranks,
          (outlook.standing readLeft).typeRank_eq, (outlook.standing readRight).typeRank_eq]
        exact Run.Ends.pure rfl
      case pos =>
        cases Datum.sameKind_of_rank_eq ranks with
        | leaves =>
            cases outlook.standing readLeft with
            | leaf leftKnown =>
                cases outlook.standing readRight with
                | leaf rightKnown =>
                    rw [Value.compareWithin_leaf leftKnown rightKnown]
                    exact Run.Ends.pure rfl
        | sequences leftItems rightItems =>
            cases outlook.standing readLeft with
            | sequence leftKind leftWalk =>
                cases outlook.standing readRight with
                | sequence rightKind rightWalk =>
                    rw [Value.compareWithin_sequences leftKind rightKind]
                    simp only [Datum.cost] at leftWithin rightWithin
                    have := Datum.length_le_costAll leftItems
                    exact compareCursors_ends induction
                      (fun item member => by have := Datum.cost_lt_costAll member; omega)
                      (fun item member => by have := Datum.cost_lt_costAll member; omega)
                      (by omega) leftWalk rightWalk
        | maps =>
            cases outlook.standing readLeft with
            | map leftContents leftKeys leftValues =>
                cases outlook.standing readRight with
                | map rightContents rightKeys rightValues =>
                    rw [Value.compareWithin_maps leftContents rightContents]
                    simp only [Datum.cost, Datum.costAll_arrange] at leftWithin rightWithin
                    exact (comparePairs_orders induction).compareSorted_ends
                      (readsEntriesWithin leftKeys leftValues (by omega))
                      (readsEntriesWithin rightKeys rightValues (by omega))
        | sets =>
            cases outlook.standing readLeft with
            | set leftContents leftRead =>
                cases outlook.standing readRight with
                | set rightContents rightRead =>
                    rw [Value.compareWithin_sets leftContents rightContents]
                    simp only [Datum.cost, Datum.costAll_arrange] at leftWithin rightWithin
                    exact induction.compareSorted_ends
                      (readsAllWithin leftRead (by omega))
                      (readsAllWithin rightRead (by omega))

variable (outlook) in
/-- Values are ordered as their data. -/
theorem compareWithin_orders {bound fuel : Nat}
    (within : bound ≤ fuel) :
    outlook.Orders point (outlook.ReadsWithin bound) (compareWithin fuel) where
  later le _ _ read := readsWithin_later le read
  ends between le _ _ _ _ readLeft readRight :=
    (compareWithin_orders_fuel fuel).ends between le (readLeft.weaken within)
      (readRight.weaken within)

end Outlook

/-! ## At moments -/

variable {machine : Machine} {moment : Moment}

/-- Elements stand for data, and the comparison orders them as it orders the data. -/
structure Orders {α : Type} (machine : Machine) (moment : Moment)
    (Good : Moment → α → Datum → Prop) (compare : α → α → Run Ordering) : Prop where
  later : ∀ {before after}, before ≤ after → ∀ element datum,
    Good before element datum → Good after element datum
  gives : ∀ between, moment ≤ between → ∀ {left right leftDatum rightDatum},
    Good between left leftDatum → Good between right rightDatum →
    Gives machine between (compare left right) fun order _ =>
      order = leftDatum.compare rightDatum

theorem Orders.from_later {α : Type} {Good : Moment → α → Datum → Prop}
    {compare : α → α → Run Ordering} (orders : Orders machine moment Good compare)
    {between : Moment} (le : moment ≤ between) : Orders machine between Good compare where
  later := orders.later
  gives last leLast := orders.gives last (le.trans leLast)

namespace Moment

/-- Reading a datum that costs no more than some bound. -/
def ReadsWithin (bound : Nat) (moment : Moment) (value : Value) (datum : Datum) : Prop :=
  moment.Reads value datum ∧ datum.cost ≤ bound

end Moment

end LispRuntime
