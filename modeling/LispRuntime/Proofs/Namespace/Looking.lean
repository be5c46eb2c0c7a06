import LispRuntime.Namespace.Basic
import LispRuntime.Proofs.Value.Equality

/-! Questions about vars and namespaces only look. A keyword is sought without walking through
anything, whatever collection it is sought in, and this is all that the question whether a var
is public comes to. -/

namespace LispRuntime

/-- In all these worlds the computation ends at once with the same answer, and changes
nothing. -/
def Run.Looks {α : Type} (machine : Machine) (worlds : World → Prop) (computation : Run α) : Prop :=
  ∃ answer, ∀ world, worlds world → computation machine world = some (answer, world)

namespace Run.Looks

variable {α β : Type} {machine : Machine} {worlds : World → Prop}

theorem pure (answer : α) : Looks machine worlds (Pure.pure answer) := ⟨answer, fun _ _ => rfl⟩

/-- The first part has a known answer in all these worlds. -/
theorem after {computation : Run α} {next : α → Run β} {answer : α}
    (ran : ∀ world, worlds world → computation machine world = some (answer, world))
    (goesOn : Looks machine worlds (next answer)) :
    Looks machine worlds (computation >>= next) := by
  rcases goesOn with ⟨last, ranNext⟩
  exact ⟨last, fun world inside => (Run.run_bind (ran world inside)).trans (ranNext world inside)⟩

theorem bind {computation : Run α} {next : α → Run β} (looks : Looks machine worlds computation)
    (goesOn : ∀ answer, Looks machine worlds (next answer)) :
    Looks machine worlds (computation >>= next) := by
  rcases looks with ⟨answer, ran⟩
  exact .after ran (goesOn answer)

theorem map {computation : Run α} (looks : Looks machine worlds computation) (change : α → β) :
    Looks machine worlds (do return change (← computation)) :=
  looks.bind fun _ => .pure _

theorem limited {next : Nat → Run α} (goesOn : Looks machine worlds (next machine.limit)) :
    Looks machine worlds (Run.limit >>= next) := goesOn

theorem outcome {first : Run α} {next : α → Attempt β} {answer : α}
    (ran : ∀ world, worlds world → first machine world = some (answer, world))
    (goesOn : Looks machine worlds (next answer).run) :
    Looks machine worlds ((liftM first : Attempt α) >>= next).run := by
  rcases goesOn with ⟨last, ranNext⟩
  exact ⟨last, fun world inside =>
    (Attempt.run_first (ran world inside)).trans (ranNext world inside)⟩

end Run.Looks

open Run (Looks)

variable {machine : Machine} {worlds : World → Prop}

/-! ## Seeking a keyword -/

namespace Value

section

variable {fuel : Nat} {ε : Type}

theorem looks_equal (name : Keyword) (stored : Value) :
    Looks machine worlds (equalWithin (fuel + 1) (.keyword name) stored) := by
  cases stored
  case keyword other =>
    by_cases same : name = other
    · subst same
      rw [equalWithin_of_identical (by simp [identical])]
      exact .pure _
    · rw [equalWithin_leaf rfl rfl (by simp [identical, same])]
      exact .pure _
  all_goals exact .pure false

theorem looks_compare (stored : Value) (name : Keyword) :
    Looks machine worlds (compareWithin (fuel + 1) stored (.keyword name)) := by
  cases stored <;> exact .pure _

theorem looks_placeIn (equal : Value → Value → Run Bool) (name : Keyword)
    (entries : List (Value × Value)) :
    Looks machine worlds
      (ArrayMap.PoolAccess.placeIn (isSoughtKey equal (.keyword name)) entries) := by
  induction entries with
  | nil => exact .pure none
  | cons entry rest induction =>
      have here : Looks machine worlds (isSoughtKey equal (.keyword name) entry.1) := by
        cases entry.1 <;> exact .pure _
      refine here.bind fun isHere => ?_
      cases isHere with
      | true => exact .pure _
      | false => exact induction.map _

theorem looks_hashed {equal : Value → Value → Run Bool} {name : Keyword}
    (compares : ∀ stored, Looks machine worlds (equal (.keyword name) stored))
    (keyOf : ε → UInt32 × Value) (hash : UInt32) (elements : List ε) :
    Looks machine worlds (HashTable.find? keyOf equal hash (.keyword name) elements) := by
  induction elements with
  | nil => exact .pure none
  | cons element rest induction =>
      unfold HashTable.find?
      dsimp only
      split
      · refine (compares _).bind fun isHere => ?_
        cases isHere with
        | true => exact .pure _
        | false => exact induction
      · exact induction

theorem looks_sorted (keyOf : ε → Value) (name : Keyword) (elements : List ε) :
    Looks machine worlds
      (SortedTable.find? keyOf (compareWithin (fuel + 1)) (.keyword name) elements) := by
  induction elements with
  | nil => exact .pure none
  | cons element rest induction =>
      refine (looks_compare _ name).bind fun order => ?_
      cases order with
      | lt => exact induction
      | eq => exact .pure _
      | gt => exact .pure _

variable {name : Keyword}

theorem looks_equal_limited (positive : 0 < machine.limit) (stored : Value) :
    Looks machine worlds (equal (.keyword name) stored) := by
  refine .limited ?_
  rw [← Nat.succ_pred_eq_of_pos positive]
  exact looks_equal name stored

theorem looks_lookupWith (positive : 0 < machine.limit) (map : Value) :
    Looks machine worlds (lookupWith equal machine.limit map (.keyword name)) := by
  have compares : ∀ stored, Looks machine worlds (equal (.keyword name) stored) :=
    looks_equal_limited positive
  rw [← Nat.succ_pred_eq_of_pos positive]
  unfold lookupWith
  split
  · refine (looks_placeIn equal name _).bind fun place => ?_
    cases place <;> exact .pure _
  · exact (Looks.pure name.hash).bind fun hash => (looks_hashed compares _ hash _).map _
  · exact (looks_sorted _ name _).map _
  · exact .pure none

theorem looks_memberWith (positive : 0 < machine.limit) (set : Value) :
    Looks machine worlds (memberWith equal machine.limit set (.keyword name)) := by
  have compares : ∀ stored, Looks machine worlds (equal (.keyword name) stored) :=
    looks_equal_limited positive
  rw [← Nat.succ_pred_eq_of_pos positive]
  unfold memberWith
  split
  · exact (Looks.pure name.hash).bind fun hash => (looks_hashed compares _ hash _).map _
  · exact (looks_sorted _ name _).map _
  · exact .pure false

/-! ## Collections -/

theorem looks_editable (positive : 0 < machine.limit) {maps : ArrayMap.Pool Value}
    (same : ∀ world, worlds world → world.maps = maps) (editable : Editable) :
    Looks machine worlds (editable.get? (.keyword name)) := by
  have contents : Looks machine worlds editable.contents := by
    cases editable with
    | arrayMap handle =>
        refine ⟨.arrayMap handle (maps.entries handle) none, fun world inside => ?_⟩
        rw [← same world inside]
        rfl
    | hashMap | sortedMap | vector | hashSet | sortedSet => exact .pure _
  refine contents.bind fun contents => ?_
  split
  · exact .pure none
  · split
    · refine .limited ((looks_memberWith positive contents).bind fun isMember => ?_)
      cases isMember <;> exact .pure _
    · exact .limited (looks_lookupWith positive contents)

theorem looks_getKey (positive : 0 < machine.limit) {maps : ArrayMap.Pool Value}
    (sameMaps : ∀ world, worlds world → world.maps = maps) {collection : Value}
    (sameTransient : ∀ cell, collection = .transient cell → ∃ state, ∀ world, worlds world →
      world.transients.get? cell.index = some state) :
    Looks machine worlds (collection.getKey (.keyword name)) := by
  unfold getKey getOr
  split
  case h_1 => exact .pure _
  case h_2 cell =>
    rcases sameTransient cell rfl with ⟨state, here⟩
    have transientAt : ∀ world, worlds world →
        Run.transientAt cell machine world = some (state, world) := by
      intro world inside
      change Run.found (world.transients.get? cell.index) machine world = _
      rw [here world inside]
      rfl
    have looked : Looks machine worlds (Run.outcome (Transient.get? cell (.keyword name))) := by
      have read : Looks machine worlds (Run.outcome (Transient.editable cell)) := by
        refine .outcome transientAt ?_
        cases state <;> exact .pure _
      refine read.bind fun outcome => ?_
      cases outcome with
      | error error => exact .pure _
      | ok editable => exact (looks_editable positive sameMaps editable).map _
    refine looked.bind fun outcome => ?_
    split <;> exact .pure _
  case h_3 =>
    split
    · exact .map (.limited (looks_lookupWith positive collection)) _
    · split
      · exact .map (.limited (looks_memberWith positive collection)) _
      · exact .pure _

end

end Value

/-! ## Vars and namespaces -/

/-- The metadata of a var is no reference to a transient that is not there. -/
def World.MetadataThere (world : World) (var : VarCell) : Prop :=
  ∀ cell, var.metadata = some (.transient cell) → cell.index < world.transients.next

/-- The worlds in which the same vars are public. -/
structure World.SamePublics (seen world : World) : Prop where
  vars : world.vars = seen.vars
  transients : world.transients = seen.transients
  maps : world.maps = seen.maps

theorem varAt_run (machine : Machine) {world : World} {cell : Var.Cell} {var : VarCell}
    (present : world.vars.get? cell.index = some var) :
    Run.varAt cell machine world = some (var, world) := by
  change Run.found (world.vars.get? cell.index) machine world = _
  rw [present]
  rfl

theorem Var.looks_isPublic {seen : World} {cell : Var.Cell} {var : VarCell}
    (positive : 0 < machine.limit) (present : seen.vars.get? cell.index = some var)
    (there : seen.MetadataThere var) : Looks machine seen.SamePublics (Var.isPublic cell) := by
  have read : ∀ world, seen.SamePublics world →
      Var.metadata cell machine world = some (var.metadata, world) := by
    intro world same
    rw [Var.metadata, Run.run_bind (varAt_run machine (same.vars ▸ present))]
    rfl
  refine .after read ?_
  split
  case h_1 => exact .pure true
  case h_2 metadata carried =>
    refine .map (Value.looks_getKey positive (fun world same => same.maps) ?_) _
    rintro cell rfl
    rcases Store.exists_of_lt_next (there cell carried) with ⟨state, present⟩
    exact ⟨state, fun world same => same.transients ▸ present⟩

namespace World

/-- Whether a var is public, as it is answered in this world. -/
def isPublicIn (machine : Machine) (world : World) (cell : Var.Cell) : Bool :=
  ((Var.isPublic cell machine world).map Prod.fst).getD false

end World

end LispRuntime
