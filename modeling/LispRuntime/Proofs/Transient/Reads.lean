import LispRuntime.Collection.Access
import LispRuntime.Proofs.Transient.Cells

/-! Reading an open transient, beside reading the collection that would be taken out of
it. They agree on everything but `containsKey`, which does not know transients. -/

namespace LispRuntime

namespace Value

/-- What a map, a set or a vector has for a key, if it has anything for it. -/
def lookFor? (collection key : Value) : Run (Option Value) :=
  match collection with
  | vector _ items _ => return elementAt? items key
  | _ => do
      if collection.isSet then
        if ← setMember collection key then return some key else return none
      else mapLookup collection key

variable {collection : Value} {contents : Contents}

theorem getOr_eq_lookFor (has : collection.contents? = some contents) (key default : Value) :
    collection.getOr key default = do return (← collection.lookFor? key).getD default := by
  cases collection <;> cases has
  case vector | arrayMap | hashMap | sortedMap => rfl
  case hashSet | sortedSet =>
    change (setMember _ key >>= _) = (setMember _ key >>= _) >>= _
    rw [bind_assoc]
    exact bind_congr fun isThere => by cases isThere <;> rfl

theorem containsKey_eq_lookFor (has : collection.contents? = some contents) (key : Value) :
    collection.containsKey key = do return (← collection.lookFor? key).isSome := by
  cases collection <;> cases has
  case vector | arrayMap | hashMap | sortedMap => rfl
  case hashSet | sortedSet =>
    change setMember _ key = (setMember _ key >>= _) >>= _
    rw [bind_assoc]
    exact (bind_pure _).symm.trans (bind_congr fun isThere => by cases isThere <;> rfl)

end Value

variable {machine : Machine} {now : World}

/-- What would be taken out is read like what is being built. Only its place in memory is
given to it when it is taken out. -/
theorem Editable.toValue_run (building : Editable) (machine : Machine) {now left : World}
    (same : left.maps = now.maps) :
    ∃ value contents after, building.toValue machine left = some (value, after) ∧
      value.contents? = some contents ∧
      value.count.run machine now = (do return .ok (← building.count) : Run _) machine now ∧
      ∀ key, building.get? key machine now = value.lookFor? key machine now := by
  cases building with
  | arrayMap handle =>
      refine ⟨.arrayMap handle (left.maps.entries handle) none, _, left, rfl, rfl, ?_,
        fun key => ?_⟩
      · rw [same]
        rfl
      · rw [same]
        rfl
  | hashMap entries =>
      refine ⟨.hashMap left.addresses entries none, _, _, rfl, rfl, ?_, fun key => rfl⟩
      exact congrArg (fun length => some (Except.ok length, now)) (List.length_map _)
  | sortedMap entries => exact ⟨_, _, _, rfl, rfl, rfl, fun key => rfl⟩
  | vector items => exact ⟨_, _, _, rfl, rfl, rfl, fun key => by cases key <;> rfl⟩
  | hashSet items =>
      refine ⟨.hashSet left.addresses items none, _, _, rfl, rfl, ?_, fun key => rfl⟩
      exact congrArg (fun length => some (Except.ok length, now)) (List.length_map _)
  | sortedSet items => exact ⟨_, _, _, rfl, rfl, rfl, fun key => rfl⟩

namespace Transient

variable {cell : Cell} {building : Editable}

theorem get?_run (found : now.transients.get? cell.index = some (some building)) (key : Value) :
    (get? cell key).run machine now = (do return .ok (← building.get? key) : Run _) machine now :=
  Attempt.run_bind_ok (editable_run found)

theorem count_run (found : now.transients.get? cell.index = some (some building)) :
    (count cell).run machine now = (do return .ok (← building.count) : Run _) machine now :=
  Attempt.run_bind_ok (editable_run found)

/-- Does the transient find anything for the key? -/
def finds (cell : Cell) (key : Value) : Run Bool := do
  match ← (get? cell key).run with
  | .ok (some _) => return true
  | _ => return false

theorem finds_run (found : now.transients.get? cell.index = some (some building)) (key : Value) :
    finds cell key machine now =
      (do return (← building.get? key).isSome : Run _) machine now := by
  refine (Run.run_bind_congr (get?_run found key) fun _ => rfl).trans ?_
  rw [bind_assoc]
  exact Run.run_bind_congr rfl fun looked => by cases looked <;> rfl

theorem finds_run_false_iff (found : now.transients.get? cell.index = some (some building))
    (key : Value) :
    finds cell key machine now = some (false, now) ↔
      (get? cell key).run machine now = some (.ok none, now) := by
  rw [finds_run found, get?_run found]
  cases looked : building.get? key machine now with
  | none => simp only [Run.run_bind_none looked, reduceCtorEq]
  | some answered =>
      rw [Run.run_bind looked, Run.run_bind looked]
      rcases answered with ⟨_ | value, after⟩
      · change some (false, after) = some (false, now) ↔
          some (Except.ok none, after) = some (Except.ok none, now)
        simp only [Option.some.injEq, Prod.mk.injEq, true_and]
      · change some (true, after) = some (false, now) ↔
          some (Except.ok (some value), after) = some (Except.ok none, now)
        simp only [Option.some.injEq, Prod.mk.injEq, Except.ok.injEq, reduceCtorEq, false_and]

end Transient

/-- An open transient holds some collection, whatever has been done to it. Counting it and
looking for a key, with a default or without one, come to what they would come to with the
collection that would be taken out now. But a transient is never said to contain a key,
whereas the collection contains each key for which the transient finds anything. So both
say the same of a key exactly if nothing is found for it. -/
theorem Transient.reads_agree_except_containsKey (machine : Machine) {cell : Transient.Cell}
    {building : Editable}
    (found : now.transients.get? cell.index = some (some building)) :
    ∃ value after, (persistent cell).run machine now = some (.ok value, after) ∧
      (Value.transient cell).count.run machine now = value.count.run machine now ∧
      ∀ key,
        (Value.transient cell).getKey key machine now = value.getKey key machine now ∧
        (∀ default, (Value.transient cell).getOr key default machine now =
          value.getOr key default machine now) ∧
        (Value.transient cell).containsKey key machine now = some (false, now) ∧
        value.containsKey key machine now = finds cell key machine now ∧
        ((Value.transient cell).containsKey key machine now =
            value.containsKey key machine now ↔
          (get? cell key).run machine now = some (.ok none, now)) := by
  let left := { now with transients := now.transients.set cell.index none }
  have sameMaps : left.maps = now.maps := rfl
  rcases building.toValue_run machine sameMaps with
    ⟨value, contents, after, taken, has, counted, looked⟩
  have sameFor : ∀ key default, (Value.transient cell).getOr key default machine now =
      value.getOr key default machine now := by
    intro key default
    have got : (Value.transient cell).getOr key default machine now =
        (do return (← building.get? key).getD default : Run _) machine now := by
      refine (Run.run_bind_congr (get?_run found key) fun _ => rfl).trans ?_
      rw [bind_assoc]
      exact Run.run_bind_congr rfl fun looked => by cases looked <;> rfl
    rw [got, Value.getOr_eq_lookFor has]
    exact Run.run_bind_congr (looked key) fun _ => rfl
  have contained : ∀ key, value.containsKey key machine now = finds cell key machine now := by
    intro key
    rw [Value.containsKey_eq_lookFor has, finds_run found]
    exact (Run.run_bind_congr (looked key) fun _ => rfl).symm
  have missed : ∀ key, (Value.transient cell).containsKey key machine now = some (false, now) :=
    fun key => rfl
  refine ⟨value, after, persistent_run found taken, (count_run found).trans counted.symm,
    fun key => ⟨sameFor key .nil, sameFor key, missed key, contained key, ?_⟩⟩
  rw [missed, contained, eq_comm]
  exact finds_run_false_iff found key

/-- There is a transient of the map of 1 to 2. -/
def World.holdingOpen : World :=
  { World.initial with
    maps := ⟨Store.empty.push [some (.integer 1, .integer 2)], Store.empty.push ⟨0, 1, 0, false⟩⟩
    transients := Store.empty.push (some (.arrayMap 0)) }

/-- The transient finds 2 for 1, and so does the map that would be taken out. Only the map
contains 1. -/
theorem Transient.openMap_lacks_key :
    let machine : Machine := ⟨fun _ _ _ _ => none, [], 1⟩
    let now := World.holdingOpen
    now.transients.get? 0 = some (some (.arrayMap 0)) ∧
    ∃ value after, (persistent ⟨0⟩).run machine now = some (.ok value, after) ∧
      (Value.transient ⟨0⟩).getKey (.integer 1) machine now = some (.integer 2, now) ∧
      value.getKey (.integer 1) machine now = some (.integer 2, now) ∧
      (Value.transient ⟨0⟩).containsKey (.integer 1) machine now = some (false, now) ∧
      value.containsKey (.integer 1) machine now = some (true, now) := by
  intro machine now
  let cell : Cell := ⟨0⟩
  have isOpen : now.transients.get? cell.index = some (some (.arrayMap 0)) := rfl
  rcases reads_agree_except_containsKey machine isOpen with ⟨value, after, taken, -, reads⟩
  rcases reads (.integer 1) with ⟨got, -, missed, contained, -⟩
  exact ⟨isOpen, value, after, taken, rfl, got.symm.trans rfl, missed, contained.trans rfl⟩

end LispRuntime
