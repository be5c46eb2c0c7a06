import LispRuntime.Proofs.World.Making

/-! Hashes, the order, equality and printed texts are made of calls and the forcing of cells. -/

namespace LispRuntime.Made

/-! ## Hashing -/

theorem hashEntries {hashOf : Value → Run UInt32} (hashes : ∀ value, Made (hashOf value))
    (entries : List (Value × Value)) : Made (Value.hashEntries hashOf entries) := by
  refine (mapM (fun entry => ?_) entries).map _
  exact (hashes entry.1).bind fun _ => (hashes entry.2).map _

theorem readPool : Made Run.pool.read := get.map _

theorem writePool (maps : ArrayMap.Pool Value) : Made (Run.pool.write maps) :=
  writing fun _ => ((), maps)

theorem poolHash {hashEntries : List (Value × Value) → Run UInt32}
    (hashes : ∀ entries, Made (hashEntries entries)) (handle : Nat) :
    Made (Run.pool.hash hashEntries handle) := by
  apply readPool.bind
  intro pool
  dsimp only
  split
  · exact .pure _
  · apply (hashes _).bind
    intro computed
    exact readPool.bind fun _ => (writePool _).bind fun _ => .pure computed

theorem hashWithin (fuel : Nat) (value : Value) : Made (value.hashWithin fuel) := by
  induction fuel generalizing value with
  | zero => exact stuck
  | succ fuel induction =>
      have pushes : ∀ tally item, Made (do
          return Hash.Tally.pushOrdered tally (← Value.hashWithin fuel item)) :=
        fun tally item => (induction item).map _
      unfold Value.hashWithin
      split
      all_goals first
        | exact .pure _
        | exact (mapM induction _).map _
        | exact (foldElements pushes fuel _ _).map _
        | exact poolHash (fun _ => hashEntries induction _) _
        | exact hashEntries induction _

theorem hash (value : Value) : Made value.hash :=
  limit.bind fun fuel => hashWithin fuel value

/-! ## Comparing -/

section

variable {α : Type} {compare : α → α → Run Ordering}
  (compares : ∀ left right, Made (compare left right))

include compares

theorem insertOrdered (element : α) (elements : List α) :
    Made (LispRuntime.insertOrdered compare element elements) := by
  induction elements with
  | nil => exact .pure _
  | cons head tail induction =>
      apply (compares head element).bind
      intro order
      split
      · exact .pure _
      · exact induction.map _

theorem sortOrdered (elements : List α) : Made (LispRuntime.sortOrdered compare elements) :=
  foldlM (fun sorted element => insertOrdered compares element sorted) elements []

theorem compareLists (left right : List α) :
    Made (LispRuntime.compareLists compare left right) := by
  induction left generalizing right with
  | nil => cases right <;> exact .pure _
  | cons element rest induction =>
      cases right with
      | nil => exact .pure _
      | cons other otherRest =>
          apply (compares element other).bind
          intro order
          split
          · exact induction otherRest
          · exact .pure _

theorem comparePairs (left right : α × α) :
    Made (LispRuntime.comparePairs compare left right) := by
  apply (compares left.1 right.1).bind
  intro order
  split
  · exact compares left.2 right.2
  · exact .pure _

theorem compareSorted (left right : List α) :
    Made (LispRuntime.compareSorted compare left right) := by
  apply (sortOrdered compares left).bind
  intro sortedLeft
  apply (sortOrdered compares right).bind
  intro sortedRight
  split
  · exact compareLists compares sortedLeft sortedRight
  · exact .pure _

end

theorem compareCursors {compare : Value → Value → Run Ordering}
    (compares : ∀ left right, Made (compare left right)) (fuel : Nat) (left right : Cursor) :
    Made (Value.compareCursors compare fuel left right) := by
  induction fuel generalizing left right with
  | zero => exact stuck
  | succ fuel induction =>
      apply (nextElement left).bind
      rintro ⟨_ | leftItem, leftRest⟩
      · apply (nextElement right).bind
        rintro ⟨_ | rightItem, rightRest⟩ <;> exact .pure _
      · apply (nextElement right).bind
        rintro ⟨_ | rightItem, rightRest⟩
        · exact .pure _
        · apply (compares leftItem rightItem).bind
          intro order
          split
          · exact induction leftRest rightRest
          · exact .pure _

theorem compareWithin (fuel : Nat) (left right : Value) :
    Made (Value.compareWithin fuel left right) := by
  induction fuel generalizing left right with
  | zero => exact stuck
  | succ fuel induction =>
      unfold Value.compareWithin
      split
      · exact .pure _
      split
      case h_11 =>
        split
        · exact compareCursors induction fuel _ _
        split
        · exact compareSorted (comparePairs induction) _ _
        split
        · exact compareSorted induction _ _
        · exact .pure _
      all_goals exact .pure _

theorem compare (left right : Value) : Made (left.compare right) :=
  limit.bind fun fuel => compareWithin fuel left right

/-! ## Tables -/

section

variable {ε : Type} {equal : Value → Value → Run Bool}
  (equals : ∀ left right, Made (equal left right))

include equals

theorem findHashed (keyOf : ε → UInt32 × Value) (hash : UInt32) (sought : Value)
    (elements : List ε) : Made (HashTable.find? keyOf equal hash sought elements) := by
  induction elements with
  | nil => exact .pure none
  | cons element rest induction =>
      unfold HashTable.find?
      dsimp only
      split
      · apply (equals sought _).bind
        intro same
        split
        · exact .pure _
        · exact induction
      · exact induction

theorem insertHashed (keyOf : ε → UInt32 × Value) (new : ε) (elements : List ε) :
    Made (HashTable.insert keyOf equal new elements) := by
  induction elements with
  | nil => exact .pure _
  | cons element rest induction =>
      unfold HashTable.insert
      dsimp only
      split
      · apply (equals _ _).bind
        intro same
        split
        · exact .pure _
        · exact induction.map _
      · exact induction.map _

theorem eraseHashed (keyOf : ε → UInt32 × Value) (hash : UInt32) (sought : Value)
    (elements : List ε) : Made (HashTable.erase keyOf equal hash sought elements) := by
  induction elements with
  | nil => exact .pure _
  | cons element rest induction =>
      unfold HashTable.erase
      dsimp only
      split
      · apply (equals sought _).bind
        intro same
        split
        · exact .pure _
        · exact induction.map _
      · exact induction.map _

theorem isSoughtKey (sought stored : Value) :
    Made (Value.isSoughtKey equal sought stored) := by
  unfold Value.isSoughtKey
  split
  · split <;> exact .pure _
  · exact equals stored sought

end

theorem findSorted {ε : Type} (keyOf : ε → Value) {compare : Value → Value → Run Ordering}
    (compares : ∀ left right, Made (compare left right)) (sought : Value)
    (elements : List ε) : Made (SortedTable.find? keyOf compare sought elements) := by
  induction elements with
  | nil => exact .pure none
  | cons element rest induction =>
      apply (compares _ sought).bind
      intro order
      cases order with
      | lt => exact induction
      | eq | gt => exact .pure _

theorem insertSorted {ε : Type} (keyOf : ε → Value) (new : ε) (elements : List ε) :
    Made (SortedTable.insert keyOf Value.compare new elements) := by
  induction elements with
  | nil => exact .pure _
  | cons element rest induction =>
      apply (compare _ _).bind
      intro order
      cases order with
      | lt => exact induction.map _
      | eq | gt => exact .pure _

theorem eraseSorted {ε : Type} (keyOf : ε → Value) (sought : Value) (elements : List ε) :
    Made (SortedTable.erase keyOf Value.compare sought elements) := by
  induction elements with
  | nil => exact .pure _
  | cons element rest induction =>
      apply (compare _ _).bind
      intro order
      cases order with
      | lt => exact induction.map _
      | eq | gt => exact .pure _

theorem placeIn {isSought : Value → Run Bool} (tests : ∀ stored, Made (isSought stored))
    (entries : List (Value × Value)) :
    Made (ArrayMap.PoolAccess.placeIn isSought entries) := by
  induction entries with
  | nil => exact .pure none
  | cons entry rest induction =>
      apply (tests entry.1).bind
      intro found
      split
      · exact .pure _
      · exact induction.map _

/-! ## Equality -/

section

variable {equal : Value → Value → Run Bool} (equals : ∀ left right, Made (equal left right))
  (fuel : Nat)

include equals

theorem lookupWith (map sought : Value) : Made (Value.lookupWith equal fuel map sought) := by
  unfold Value.lookupWith
  split
  · apply (placeIn (isSoughtKey equals sought) _).bind
    intro place
    split <;> exact .pure _
  · exact (hashWithin fuel sought).bind fun hash => (findHashed equals _ hash sought _).map _
  · exact (findSorted _ (compareWithin fuel) sought _).map _
  · exact .pure none

theorem memberWith (set sought : Value) : Made (Value.memberWith equal fuel set sought) := by
  unfold Value.memberWith
  split
  · exact (hashWithin fuel sought).bind fun hash => (findHashed equals _ hash sought _).map _
  · exact (findSorted _ (compareWithin fuel) sought _).map _
  · exact .pure false

theorem equalCursors (left right : Cursor) :
    Made (Value.equalCursors equal fuel left right) := by
  induction fuel generalizing left right with
  | zero => exact stuck
  | succ fuel induction =>
      apply (step left).bind
      rintro ⟨leftStep, leftRest⟩
      apply (step right).bind
      rintro ⟨rightStep, rightRest⟩
      dsimp only
      split
      · exact .pure true
      · apply (equals _ _).bind
        intro same
        split
        · exact induction leftRest rightRest
        · exact .pure false
      · exact .pure false

theorem equalItems (left right : List Value) : Made (Value.equalItems equal left right) := by
  induction left generalizing right with
  | nil => exact .pure true
  | cons item rest induction =>
      cases right with
      | nil => exact .pure true
      | cons other otherRest =>
          apply (equals item other).bind
          intro same
          split
          · exact induction otherRest
          · exact .pure false

theorem equalSequences (left right : Value) :
    Made (Value.equalSequences equal fuel left right) := by
  unfold Value.equalSequences
  split
  · split
    · exact equalItems equals _ _
    · exact .pure false
  · exact equalCursors equals fuel _ _

omit equals in
theorem forAll {α : Type} {test : α → Run Bool} (tests : ∀ element, Made (test element))
    (elements : List α) : Made (Value.forAll test elements) := by
  induction elements with
  | nil => exact .pure true
  | cons element rest induction =>
      apply (tests element).bind
      intro holds
      split
      · exact induction
      · exact .pure false

theorem equalMaps (left right : List (Value × Value)) (map : Value) :
    Made (Value.equalMaps equal fuel left right map) := by
  unfold Value.equalMaps
  split
  · apply forAll
    intro entry
    apply (lookupWith equals fuel map entry.1).bind
    intro found
    split
    · exact equals _ _
    · exact .pure false
  · exact .pure false

theorem equalSets (left right : List Value) (set : Value) :
    Made (Value.equalSets equal fuel left right set) := by
  unfold Value.equalSets
  split
  · exact forAll (memberWith equals fuel set) left
  · exact .pure false

end

theorem equalWithin (fuel : Nat) (left right : Value) :
    Made (Value.equalWithin fuel left right) := by
  induction fuel generalizing left right with
  | zero => exact stuck
  | succ fuel induction =>
      unfold Value.equalWithin
      split
      · exact .pure true
      split
      · exact .pure _
      split
      · exact equalMaps induction fuel _ _ _
      split
      · exact equalSets induction fuel _ _ _
      split
      · exact equalSequences induction fuel _ _
      · exact .pure false

theorem equal (left right : Value) : Made (left.equal right) :=
  limit.bind fun fuel => equalWithin fuel left right

/-! ## Printing -/

theorem printLength : Made Run.printLength := get.map _

theorem printItems {α : Type} {display : α → Run String}
    (displays : ∀ item, Made (display item)) (separator : String) (limit : Option Nat)
    (index : Nat) (items : List α) :
    Made (Printing.items display separator limit index items) := by
  induction items generalizing index with
  | nil => exact .pure _
  | cons item rest induction =>
      unfold Printing.items
      split
      · exact .pure _
      · exact (displays item).bind fun _ => (induction _).map _

section

variable {display : Value → Run String} (displays : ∀ value, Made (display value))

include displays

theorem printSteps (limit : Option Nat) (fuel index : Nat) (cursor : Cursor) :
    Made (Printing.steps display limit fuel index cursor) := by
  induction fuel generalizing index cursor with
  | zero => exact stuck
  | succ fuel induction =>
      apply (step cursor).bind
      rintro ⟨_ | yielded, rest⟩
      · exact .pure _
      · dsimp only
        split
        · exact .pure _
        cases yielded with
        | error error => exact .pure _
        | ok item => exact (displays item).bind fun _ => (induction _ rest).map _

theorem displayItems (opening closing : String) (elements : List Value) :
    Made (Value.displayItems display opening closing elements) :=
  printLength.bind fun limit => (printItems displays " " limit 0 elements).map _

theorem displayEntries (entries : List (Value × Value)) :
    Made (Value.displayEntries display entries) := by
  apply printLength.bind
  intro limit
  refine (printItems (fun entry => ?_) ", " limit 0 entries).map _
  exact (displays entry.1).bind fun _ => (displays entry.2).map _

theorem displaySteps (fuel : Nat) (value : Value) :
    Made (Value.displaySteps display fuel value) :=
  printLength.bind fun limit => (printSteps displays limit fuel 0 _).map _

theorem displayHeld (holder : String) (value : Value) :
    Made (Value.displayHeld display holder value) :=
  (displays value).map _

end

theorem displayWithin (fuel : Nat) (value : Value) : Made (value.displayWithin fuel) := by
  induction fuel generalizing value with
  | zero => exact stuck
  | succ fuel induction =>
      unfold Value.displayWithin
      split
      case h_26 =>
        apply (look _).bind
        intro deferred
        split
        · exact displayHeld induction _ _
        · exact .pure _
      all_goals first
        | exact .pure _
        | exact displayItems induction _ _ _
        | exact displaySteps induction fuel _
        | exact displayEntries induction _
        | exact (look _).map _
        | exact (look _).bind fun _ => displayHeld induction _ _
        | exact displayHeld induction _ _

theorem display (value : Value) : Made value.display :=
  limit.bind fun fuel => displayWithin fuel value

theorem inspect (value : Value) : Made value.inspect := by
  unfold Value.inspect
  split
  · exact .pure _
  · exact .pure _
  · exact (display _).bind fun _ => (display _).map _
  · refine (mapM (fun entry => ?_) _).map _
    exact (display entry.1).bind fun _ => (display entry.2).map _
  · apply (look _).bind
    intro state
    split
    · exact display _
    · exact .pure _
  · exact display value

end LispRuntime.Made
