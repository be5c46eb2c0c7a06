import LispRuntime.Proofs.Sight.Walking
import LispRuntime.Proofs.Value.Copies
import LispRuntime.Proofs.Value.Laws

/-! What equality, the hash and the order owe each other where sequences may fail. The order and
the hash take a failure for the end, but for equality a sequence that fails is equal to nothing but
itself. So the order agrees with equality exactly as long as sequences that fail are told apart by
what they show. Equal values hash alike all the same, as long as no array map remembers a wrong
hash. -/

namespace LispRuntime

namespace Outlook

variable {machine : Machine} {σ : Type} [Preorder σ] (outlook : Outlook machine σ) {point : σ}
  {left right : Value} {leftWhole rightWhole : Bool} {leftItems rightItems : List Datum}

/-! ## Two sequences -/

/-- The order looks only at what two sequences show. -/
theorem compareShown_ends (leftKind : left.isSequential = true)
    (rightKind : right.isSequential = true)
    (leftWalk : outlook.Walks point left leftWhole leftItems)
    (rightWalk : outlook.Walks point right rightWhole rightItems) {fuel : Nat}
    (leftCosts : Datum.costAll leftItems < fuel) (rightCosts : Datum.costAll rightItems < fuel) :
    outlook.Ends point (Value.compareWithin (fuel + 1) left right) fun order _ =>
      order = (Datum.sequence leftItems).compare (.sequence rightItems) := by
  rw [Value.compareWithin_sequences leftKind rightKind, Datum.compare]
  have length := Datum.length_le_costAll leftItems
  exact compareCursors_ends (outlook.compareWithin_orders (Nat.le_refl fuel))
    (fun item member => ((Datum.cost_lt_costAll member).trans leftCosts).le)
    (fun item member => ((Datum.cost_lt_costAll member).trans rightCosts).le)
    (length.trans_lt leftCosts) leftWalk rightWalk

/-- Two sequences are equal only if both come to their ends. -/
theorem equalShown_ends {bound : Nat} (remembers : outlook.RemembersWithin bound point)
    (leftKind : left.isSequential = true) (rightKind : right.isSequential = true)
    (distinct : left.identical right = false)
    (leftWalk : outlook.Walks point left leftWhole leftItems)
    (rightWalk : outlook.Walks point right rightWhole rightItems)
    (leftCosts : Datum.costAll leftItems ≤ bound) (rightCosts : Datum.costAll rightItems ≤ bound)
    {fuel : Nat} (enough : bound < fuel) :
    outlook.Ends point (Value.equalWithin (fuel + 1) left right) fun answer _ =>
      outlook.Judges answer (leftWhole = true ∧ rightWhole = true ∧ leftItems = rightItems) := by
  rw [Value.equalWithin_sequences leftKind rightKind distinct]
  have length := Datum.length_le_costAll leftItems
  exact equalSequences_ends (outlook.equalWithin_equates remembers enough) leftWalk (by omega)
    rightWalk (by omega) (by omega)

variable {hashedAddress sortedAddress : Nat} {hash : UInt32} {value : Value}
  {hashedMetadata sortedMetadata : Option Value}

/-- A sorted map takes a sequence for another one that shows the same, whether they fail or not. -/
theorem equalToSorted_ends (leftKind : left.isSequential = true)
    (rightKind : right.isSequential = true) {items : List Datum}
    (leftWalk : outlook.Walks point left leftWhole items)
    (rightWalk : outlook.Walks point right rightWhole items) {fuel : Nat}
    (costs : Datum.costAll items < fuel) :
    outlook.Ends point
      (Value.equalWithin (fuel + 2) (.hashMap hashedAddress [(hash, left, value)] hashedMetadata)
        (.sortedMap sortedAddress [(right, value)] sortedMetadata))
      fun answer _ => answer = true := by
  have finds : outlook.Ends point
      (Value.lookupWith (Value.equalWithin (fuel + 1)) (fuel + 1)
        (.sortedMap sortedAddress [(right, value)] sortedMetadata) left)
      fun found _ => found = some value := by
    simp only [Value.lookupWith, SortedTable.find?, bind_assoc]
    apply (outlook.compareShown_ends rightKind leftKind rightWalk leftWalk costs costs).bind
    rintro _ _ _ rfl
    rw [Datum.compare_self]
    exact Run.Ends.pure rfl
  have contents : (Value.hashMap hashedAddress [(hash, left, value)] hashedMetadata).mapEntries? =
      some [(left, value)] := rfl
  rw [Value.equalWithin_maps contents rfl rfl]
  unfold Value.equalMaps Value.forAll
  rw [if_pos (by simp), bind_assoc]
  apply finds.bind
  rintro _ _ _ rfl
  dsimp only
  rw [Value.equalWithin_of_identical value.identical_self]
  exact Run.Ends.pure rfl

/-- A hash map does not, if one of them fails. -/
theorem equalToHashed_ends {bound : Nat} (remembers : outlook.RemembersWithin bound point)
    (leftKind : left.isSequential = true) (rightKind : right.isSequential = true)
    (distinct : right.identical left = false)
    (leftWalk : outlook.Walks point left leftWhole leftItems)
    (rightWalk : outlook.Walks point right rightWhole rightItems)
    (leftCosts : Datum.costAll leftItems ≤ bound) (rightCosts : Datum.costAll rightItems ≤ bound)
    {fuel : Nat} (enough : bound < fuel) (fails : ¬(rightWhole = true ∧ leftWhole = true)) :
    outlook.Ends point
      (Value.equalWithin (fuel + 2) (.sortedMap sortedAddress [(right, value)] sortedMetadata)
        (.hashMap hashedAddress [(hash, left, value)] hashedMetadata))
      fun answer _ => answer = false := by
  have finds : outlook.Ends point
      (Value.lookupWith (Value.equalWithin (fuel + 1)) (fuel + 1)
        (.hashMap hashedAddress [(hash, left, value)] hashedMetadata) right)
      fun found _ => found = none := by
    have seeks : ∀ between, point ≤ between → ∀ sought,
        outlook.Ends between
          (HashTable.find? Value.hashedKey (Value.equalWithin (fuel + 1)) sought right
            [(hash, left, value)]) fun found _ => found = none := by
      intro between le sought
      simp only [HashTable.find?]
      split
      case isFalse => exact Run.Ends.pure rfl
      case isTrue =>
        apply (outlook.equalShown_ends (remembers.later le) rightKind leftKind distinct
          (outlook.walks_later le rightWalk) (outlook.walks_later le leftWalk) rightCosts leftCosts
          enough).bind
        intro answer _ _ judges
        cases answer
        case true => exact absurd ⟨(judges.1 rfl).1, (judges.1 rfl).2.1⟩ fails
        case false => exact Run.Ends.pure rfl
    have length := Datum.length_le_costAll rightItems
    refine (hashSequence_ends rightKind rightWalk (by omega) ?_).bind ?_
    · intro between le item datum member read
      have less := Datum.cost_lt_costAll member
      exact outlook.hashWithin_ends ((remembers.later le).weaken (by omega)) (by omega) read
    intro sought between le _
    apply (seeks between le sought).bind
    rintro _ _ _ rfl
    exact Run.Ends.pure rfl
  have contents : (Value.hashMap hashedAddress [(hash, left, value)] hashedMetadata).mapEntries? =
      some [(left, value)] := rfl
  rw [Value.equalWithin_maps rfl contents rfl]
  unfold Value.equalMaps Value.forAll
  rw [if_pos (by simp), bind_assoc]
  apply finds.bind
  rintro _ _ _ rfl
  exact Run.Ends.pure rfl

end Outlook

namespace Foresight.View

variable {machine : Machine} {foresight : Foresight machine} {view : foresight.View}
  {left right : Value} {leftDatum rightDatum : Datum}

/-! ## Lasting answers -/

/-- From here on the computation always ends, and always with this answer. -/
abbrev Always {α : Type} (view : foresight.View) (computation : Run α) (answer : α) : Prop :=
  Run.Always (fun view : foresight.View => view.1.world) machine view computation answer

/-- The computation has ended with this answer once, here or further on. -/
abbrev Once {α : Type} (view : foresight.View) (computation : Run α) (answer : α) : Prop :=
  Run.Once (fun view : foresight.View => view.1.world) machine view computation answer

/-- No map that is known remembers a wrong hash, if it costs no more than this. -/
abbrev RemembersWithin (view : foresight.View) (bound : Nat) : Prop :=
  view.1.toMoment.RemembersWithin bound

theorem RemembersWithin.later {bound : Nat} (remembers : view.RemembersWithin bound)
    {later : foresight.View} (le : view ≤ later) : later.RemembersWithin bound :=
  (Sight.Leads.moment le).remembers bound remembers

theorem ends_of_outlook {α : Type} {computation : Run α} {post : α → Prop}
    (ends : view.outlook.Ends ⟨view, le_refl view⟩ computation fun answer _ => post answer) :
    view.Ends computation fun answer _ => post answer := by
  rcases ends with ⟨answer, ⟨after, _⟩, ran, le, holds⟩
  exact ⟨answer, after, ran, le, holds⟩

theorem hash_always {value : Value} {datum : Datum} (remembers : view.RemembersWithin datum.cost)
    (enough : datum.cost ≤ machine.limit) (seen : view.1.Sees value datum) :
    view.Always value.hash datum.hash :=
  fun later le =>
    ends_of_outlook (later.outlook.hash_ends (remembers.later le) enough (Sight.sees_later le seen))

theorem compare_always (seenLeft : view.1.Sees left leftDatum)
    (leftWithin : leftDatum.cost ≤ machine.limit) (seenRight : view.1.Sees right rightDatum)
    (rightWithin : rightDatum.cost ≤ machine.limit) :
    view.Always (left.compare right) (leftDatum.compare rightDatum) :=
  fun later le => ends_of_outlook (later.outlook.compare_ends
    ⟨Sight.sees_later le seenLeft, leftWithin⟩ ⟨Sight.sees_later le seenRight, rightWithin⟩)

section

variable {bound : Nat} (remembers : view.RemembersWithin bound) (enough : bound + 1 ≤ machine.limit)
  (seenLeft : view.1.Sees left leftDatum) (leftWithin : leftDatum.cost ≤ bound + 1)
  (seenRight : view.1.Sees right rightDatum) (rightWithin : rightDatum.cost ≤ bound + 1)

include remembers enough seenLeft leftWithin seenRight rightWithin

theorem equal_ends :
    view.Ends (left.equal right) fun answer _ =>
      view.outlook.Judges answer (leftDatum = rightDatum) := by
  have here : view.outlook.RemembersWithin bound ⟨view, le_refl view⟩ := remembers
  exact ends_of_outlook (view.outlook.equal_ends here enough ⟨seenLeft, leftWithin⟩
    ⟨seenRight, rightWithin⟩)

/-- Values that have been equal once look the same. -/
theorem eq_of_equal (once : view.Once (left.equal right) true) : leftDatum = rightDatum := by
  rcases once with ⟨later, le, world, ran⟩
  have ends := equal_ends (remembers.later le) enough (Sight.sees_later le seenLeft) leftWithin
    (Sight.sees_later le seenRight) rightWithin
  exact (ends.weaken fun _ _ _ judges => judges.1).of_run ran rfl

/-- Where sequences that fail are told apart, values that look the same are equal. -/
theorem equal_always (telling : view.1.forecast.isTelling) :
    view.Always (left.equal right) (decide (leftDatum = rightDatum)) := by
  intro later le
  have tellingThere : later.1.forecast.isTelling := by rwa [(Sight.Leads.forecast le).isTelling]
  have ends := equal_ends (remembers.later le) enough (Sight.sees_later le seenLeft) leftWithin
    (Sight.sees_later le seenRight) rightWithin
  exact ends.weaken fun _ _ _ judges => judges.eq_decide tellingThere

end

end Foresight.View

/-! ## The order and equality -/

section

variable {machine : Machine} {foresight : Foresight machine}

/-- To compare as equal is to be equal, on either side. -/
def OrderAgrees (view : foresight.View) (left right : Value) : Prop :=
  ∃ order, view.Always (left.compare right) order ∧
    view.Always (left.equal right) (order == .eq) ∧
    view.Always (right.equal left) (order == .eq)

/-- A hash map with the left value for a key and a sorted map with the right one are equal on one
side only. -/
def DependsOnSide (view : foresight.View) (left right : Value) : Prop :=
  ∀ (first second : Nat) (hash : UInt32) (value : Value) (metadata other : Option Value),
    view.Always
        ((Value.hashMap first [(hash, left, value)] metadata).equal
          (.sortedMap second [(right, value)] other)) true ∧
      view.Always
        ((Value.sortedMap second [(right, value)] other).equal
          (.hashMap first [(hash, left, value)] metadata)) false

variable {view : foresight.View} {left right : Value}

theorem orderAgrees_of_telling {leftDatum rightDatum : Datum}
    (telling : view.1.forecast.isTelling) (remembers : view.1.toMoment.RemembersRight)
    (seenLeft : view.1.Sees left leftDatum) (seenRight : view.1.Sees right rightDatum)
    (enough : leftDatum.cost + rightDatum.cost ≤ machine.limit) : OrderAgrees view left right := by
  have positive := leftDatum.cost_pos
  have same : (leftDatum.compare rightDatum == .eq) = decide (leftDatum = rightDatum) := by
    rw [Bool.eq_iff_iff, beq_iff_eq, decide_eq_true_iff, Std.LawfulEqCmp.compare_eq_iff_eq]
  refine ⟨_, Foresight.View.compare_always seenLeft (by omega) seenRight (by omega), ?_, ?_⟩
  · rw [same]
    exact Foresight.View.equal_always (remembers (machine.limit - 1)) (by omega) seenLeft
      (by omega) seenRight (by omega) telling
  · rw [same, decide_eq_decide.mpr (eq_comm : leftDatum = rightDatum ↔ _)]
    exact Foresight.View.equal_always (remembers (machine.limit - 1)) (by omega) seenRight
      (by omega) seenLeft (by omega) telling

/-! Two sequences may show the same and yet not be equal, because one of them fails. -/

/-- Two sequences that are not one, and what they show. -/
structure Sight.AreApart (sight : Sight) (left right : Value)
    (leftProspect rightProspect : Prospect) : Prop where
  leftKind : left.isSequential = true
  rightKind : right.isSequential = true
  distinct : left.identical right = false
  leftShows : sight.Shows left leftProspect.whole leftProspect.items
  rightShows : sight.Shows right rightProspect.whole rightProspect.items

namespace Sight.AreApart

variable {sight after : Sight} {leftProspect rightProspect : Prospect}

theorem swap (apart : sight.AreApart left right leftProspect rightProspect) :
    sight.AreApart right left rightProspect leftProspect where
  leftKind := apart.rightKind
  rightKind := apart.leftKind
  distinct := by
    cases other : right.identical left with
    | false => rfl
    | true => cases apart.distinct.symm.trans (Value.identical_symm other)
  leftShows := apart.rightShows
  rightShows := apart.leftShows

theorem later (apart : sight.AreApart left right leftProspect rightProspect)
    (le : sight ≤ after) : after.AreApart left right leftProspect rightProspect where
  leftKind := apart.leftKind
  rightKind := apart.rightKind
  distinct := apart.distinct
  leftShows := Sight.shown_later le apart.leftShows
  rightShows := Sight.shown_later le apart.rightShows

end Sight.AreApart

section

variable {leftProspect rightProspect : Prospect}
  (apart : view.1.AreApart left right leftProspect rightProspect)
  (enough : Datum.costAll leftProspect.items + Datum.costAll rightProspect.items + 4 ≤
    machine.limit)

include apart enough

theorem compare_always_apart :
    view.Always (left.compare right)
      ((Datum.sequence leftProspect.items).compare (.sequence rightProspect.items)) := by
  intro later le
  have there := apart.later le
  rcases Nat.exists_eq_add_of_le' (Nat.le_of_add_left_le enough) with ⟨fuel, limit⟩
  refine Run.Ends.looking rfl (Foresight.View.ends_of_outlook ?_)
  rw [limit]
  have walk : later.outlook.Walks ⟨later, le_refl later⟩ left _ _ := there.leftShows
  exact later.outlook.compareShown_ends there.leftKind there.rightKind walk there.rightShows
    (by omega) (by omega)

theorem equal_ends_apart (remembers : view.1.toMoment.RemembersRight) :
    view.Ends (left.equal right) fun answer _ =>
      view.outlook.Judges answer
        (leftProspect.whole = true ∧ rightProspect.whole = true ∧
          leftProspect.items = rightProspect.items) := by
  rcases Nat.exists_eq_add_of_le' (Nat.le_of_add_left_le enough) with ⟨fuel, limit⟩
  refine Run.Ends.looking rfl (Foresight.View.ends_of_outlook ?_)
  rw [limit]
  have here : view.outlook.RemembersWithin (fuel + 2) ⟨view, le_refl view⟩ := remembers _
  exact view.outlook.equalShown_ends here apart.leftKind apart.rightKind apart.distinct
    apart.leftShows apart.rightShows (by omega) (by omega) (by omega)

theorem equal_always_apart (telling : view.1.forecast.isTelling)
    (remembers : view.1.toMoment.RemembersRight) :
    view.Always (left.equal right)
      (decide (leftProspect.whole = true ∧ rightProspect.whole = true ∧
        leftProspect.items = rightProspect.items)) := by
  intro later le
  have tellingThere : later.1.forecast.isTelling := by rwa [(Sight.Leads.forecast le).isTelling]
  have ends := equal_ends_apart (apart.later le) enough
    fun bound => Foresight.View.RemembersWithin.later (remembers bound) le
  exact ends.weaken fun _ _ _ judges => judges.eq_decide tellingThere

theorem orderAgrees_iff_apart (telling : view.1.forecast.isTelling)
    (remembers : view.1.toMoment.RemembersRight) :
    OrderAgrees view left right ↔
      (leftProspect.items = rightProspect.items →
        leftProspect.whole = true ∧ rightProspect.whole = true) := by
  have compares := compare_always_apart apart enough
  have equals := equal_always_apart apart enough telling remembers
  have equalsToo := equal_always_apart apart.swap (by omega) telling remembers
  have same : (Datum.sequence leftProspect.items).compare (.sequence rightProspect.items) = .eq ↔
      leftProspect.items = rightProspect.items := by
    rw [Std.LawfulEqCmp.compare_eq_iff_eq, Datum.sequence.injEq]
  constructor
  · rintro ⟨order, comparesSo, equalsSo, _⟩ sameItems
    cases compares.eq_of_once comparesSo.once
    have yes := equalsSo.eq_of_once equals.once
    rw [same.mpr sameItems] at yes
    have both := of_decide_eq_true yes
    exact ⟨both.1, both.2.1⟩
  · intro whole
    refine ⟨_, compares, ?_, ?_⟩
    · convert equals using 1
      rw [Bool.eq_iff_iff, beq_iff_eq, decide_eq_true_iff, same]
      exact ⟨fun same => ⟨(whole same).1, (whole same).2, same⟩, fun both => both.2.2⟩
    · convert equalsToo using 1
      rw [Bool.eq_iff_iff, beq_iff_eq, decide_eq_true_iff, same]
      exact ⟨fun same => ⟨(whole same).2, (whole same).1, same.symm⟩, fun both => both.2.2.symm⟩

theorem dependsOnSide_apart (remembers : view.1.toMoment.RemembersRight)
    (sameItems : leftProspect.items = rightProspect.items)
    (fails : ¬(leftProspect.whole = true ∧ rightProspect.whole = true)) :
    DependsOnSide view left right := by
  rcases Nat.exists_eq_add_of_le' (Nat.le_of_add_left_le enough) with ⟨fuel, limit⟩
  intro first second hash value metadata other
  constructor
  · intro later le
    have there := apart.later le
    refine Run.Ends.looking rfl (Foresight.View.ends_of_outlook ?_)
    rw [limit]
    have walk : later.outlook.Walks ⟨later, le_refl later⟩ left _ _ := there.leftShows
    exact later.outlook.equalToSorted_ends there.leftKind there.rightKind walk
      (sameItems ▸ there.rightShows) (by omega)
  · intro later le
    have there := apart.later le
    have remembersThere : later.outlook.RemembersWithin (fuel + 1) ⟨later, le_refl later⟩ :=
      Foresight.View.RemembersWithin.later (remembers _) le
    refine Run.Ends.looking rfl (Foresight.View.ends_of_outlook ?_)
    rw [limit]
    exact later.outlook.equalToHashed_ends remembersThere there.leftKind there.rightKind
      there.swap.distinct there.leftShows there.rightShows (by omega) (by omega) (by omega)
      fun both => fails both.symm

end

end

/-- Every part of the value is in sight. -/
def Sight.IsVisible (sight : Sight) (value : Value) : Prop := ∃ datum, sight.Sees value datum

/-- Where sequences that fail are told apart by what they show, the order agrees with equality.
Two sequences that are not one show when it does not: if they show the same and one of them fails.
Then maps that have them for keys are equal on one side only. -/
theorem orderAgrees_extent {sight : Sight} (telling : sight.forecast.isTelling)
    (remembers : sight.toMoment.RemembersRight) :
    (∀ left right, sight.IsVisible left → sight.IsVisible right →
      ∃ enough, ∀ (machine : Machine) (foresight : Foresight machine)
        (kept : foresight.Kept sight), enough ≤ machine.limit →
        OrderAgrees (⟨sight, kept⟩ : foresight.View) left right) ∧
    ∀ left right leftProspect rightProspect,
      sight.AreApart left right leftProspect rightProspect →
      ∃ enough, ∀ (machine : Machine) (foresight : Foresight machine)
        (kept : foresight.Kept sight), enough ≤ machine.limit →
        (OrderAgrees (⟨sight, kept⟩ : foresight.View) left right ↔
          (leftProspect.items = rightProspect.items →
            leftProspect.whole = true ∧ rightProspect.whole = true)) ∧
        (¬OrderAgrees (⟨sight, kept⟩ : foresight.View) left right →
          DependsOnSide (⟨sight, kept⟩ : foresight.View) left right) := by
  constructor
  · rintro left right ⟨leftDatum, seenLeft⟩ ⟨rightDatum, seenRight⟩
    exact ⟨_, fun machine foresight kept enough =>
      orderAgrees_of_telling telling remembers seenLeft seenRight enough⟩
  · intro left right leftProspect rightProspect apart
    refine ⟨Datum.costAll leftProspect.items + Datum.costAll rightProspect.items + 4,
      fun machine foresight kept enough => ?_⟩
    have agrees : OrderAgrees (⟨sight, kept⟩ : foresight.View) left right ↔ _ :=
      orderAgrees_iff_apart apart enough telling remembers
    refine ⟨agrees, fun disagrees => ?_⟩
    rw [agrees, Classical.not_imp] at disagrees
    exact dependsOnSide_apart apart enough remembers disagrees.1 disagrees.2

/-! For example, bodies fail on this machine. A lazy seq is pending, and a cons cell goes on with
something that has no seq. -/

def failingMachine (limit : Nat) : Machine where
  call _ _ _ world := some (.error .bindingStackUnderflow, world)
  held := []
  limit := limit + 1

theorem World.settingDeferred_undo {world : World} {cell : Nat} {state : Deferred}
    (here : world.deferred.get? cell = some state) (other : Deferred) :
    (world.settingDeferred cell other).settingDeferred cell state = world := by
  have same : (world.deferred.set cell other).set cell state = world.deferred := by
    ext1 index
    by_cases at_cell : index = cell
    · subst at_cell
      rw [here]
      exact Store.get?_set_self state (Store.get?_set_self other here)
    · rw [Store.get?_set_of_ne _ _ at_cell, Store.get?_set_of_ne _ _ at_cell]
  exact congrArg (fun deferred => { world with deferred := deferred }) same

/-- What is pending is foretold to fail. -/
def failingForesight (limit : Nat) : Foresight (failingMachine limit) where
  Kept sight := ∀ cell prospect body, sight.forecast.cells cell = some prospect →
    sight.world.deferred.get? cell = some (.pending body) →
    prospect.whole = false ∧ prospect.items = []
  starts := Nat.succ_pos limit
  reaches kept later _ untouched cell prospect body known pending :=
    kept cell prospect body known ((congrArg (·.get? cell) untouched).symm.trans pending)
  comes {sight cell prospect body} kept known pending := by
    refine ⟨.error .bindingStackUnderflow, sight, ?_, le_refl _, kept, kept _ _ _ known pending⟩
    have called : (do Value.seqWithin limit (← Attempt.call body [])).run (failingMachine limit)
        (sight.world.settingDeferred cell.index (.running body)) =
      some (.error .bindingStackUnderflow,
        sight.world.settingDeferred cell.index (.running body)) := rfl
    have settled := World.settingDeferred_undo pending (.running body)
    exact (force_run_pending pending called).trans (congrArg (fun world => some (_, world)) settled)

/-- A cons cell that shows an integer and a lazy seq that shows nothing. -/
def failures : Sight where
  memory
    | .heap 0 => some (.sequence [.leaf (.integer 1)])
    | .deferred 0 => some (.sequence [])
    | _ => none
  world :=
    { World.initial with addresses := 1, deferred := Store.empty.push (.pending .nil) }
  heap_taken index datum known := by
    rcases index with _ | index
    · exact Nat.one_pos
    · cases known
  maps_sound := ArrayMap.Pool.sound_empty
  map_held handle datum known := nomatch known
  forecast :=
    { cells
        | 0 => some ⟨false, []⟩
        | _ => none
      isTelling := True
      failing
        | .heap 0 => some [.leaf (.integer 1)]
        | .deferred 0 => some []
        | _ => none }
  fits cell prospect known := by
    rcases cell with _ | cell
    · exact ⟨_, rfl, .pending⟩
    · cases known

private theorem failures_one : failures.Sees (.integer 1) (.leaf (.integer 1)) := .leaf rfl nofun

private theorem failures_shows (address : Nat) :
    failures.Shows (.cons address (.integer 1) (.integer 5)) false [.leaf (.integer 1)] :=
  .cons failures_one (.refused rfl)

private theorem failures_tells_cons (address : Address) :
    failures.forecast.failing address = some [.leaf (.integer 1)] ↔
      (Value.cons 0 (.integer 1) (.integer 5)).address? = some address := by
  rcases address with (_ | _) | _ | (_ | _) <;> simp [failures, Value.address?]

private theorem failures_tells_lazySeq (address : Address) :
    failures.forecast.failing address = some [] ↔
      (Value.lazySeq ⟨0⟩).address? = some address := by
  rcases address with (_ | _) | _ | (_ | _) <;> simp [failures, Value.address?]

private theorem failures_remembers : failures.toMoment.RemembersRight :=
  fun _ _ _ known => nomatch known

private theorem failures_kept (limit : Nat) : (failingForesight limit).Kept failures := by
  intro cell prospect body known _
  rcases cell with _ | cell
  · cases known
    exact ⟨rfl, rfl⟩
  · cases known

/-- The order agrees with equality on the cons cell and the lazy seq, but not on two cons cells of
the same parts. -/
theorem orderAgrees_failures :
    (∃ limit, OrderAgrees (⟨failures, failures_kept limit⟩ : (failingForesight limit).View)
      (.cons 0 (.integer 1) (.integer 5)) (.lazySeq ⟨0⟩)) ∧
    ∃ limit, ¬OrderAgrees (⟨failures, failures_kept limit⟩ : (failingForesight limit).View)
        (.cons 0 (.integer 1) (.integer 5)) (.cons 1 (.integer 1) (.integer 5)) ∧
      DependsOnSide (⟨failures, failures_kept limit⟩ : (failingForesight limit).View)
        (.cons 0 (.integer 1) (.integer 5)) (.cons 1 (.integer 1) (.integer 5)) := by
  have extent := orderAgrees_extent trivial failures_remembers
  constructor
  · have cons : failures.IsVisible (.cons 0 (.integer 1) (.integer 5)) := by
      refine ⟨_, .sequence rfl (failures_shows 0) ?_ fun _ => failures_tells_cons⟩
      rintro _ ⟨⟩
      rfl
    have lazy : failures.IsVisible (.lazySeq ⟨0⟩) := by
      refine ⟨_, .sequence rfl (.lazySeq rfl) ?_ fun _ => failures_tells_lazySeq⟩
      rintro _ ⟨⟩
      rfl
    rcases extent.1 _ _ cons lazy with ⟨enough, agrees⟩
    exact ⟨enough, agrees _ _ _ (Nat.le_succ enough)⟩
  · rcases extent.2 _ _ ⟨false, _⟩ ⟨false, _⟩
      ⟨rfl, rfl, rfl, failures_shows 0, failures_shows 1⟩ with ⟨enough, agrees⟩
    have here := agrees _ (failingForesight enough) (failures_kept enough) (Nat.le_succ enough)
    have disagrees : ¬OrderAgrees _ _ _ := fun agree => nomatch (here.1.mp agree rfl).1
    exact ⟨enough, disagrees, here.2 disagrees⟩

end LispRuntime
