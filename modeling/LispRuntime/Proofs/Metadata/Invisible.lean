import LispRuntime.Proofs.Metadata.Carried
import LispRuntime.Proofs.Metadata.Inquiries
import LispRuntime.Proofs.Metadata.Outcomes
import LispRuntime.Proofs.Metadata.Printing
import LispRuntime.Proofs.Transient.Quiet

/-! Metadata is invisible. It goes along with a collection when the collection is changed, and
nothing else depends on it: values that differ in nothing but metadata are printed alike, walked
over alike and compare alike, whatever else there is. They are also equal to the same values, have
the same hashes, are found under the same keys and change alike, as long as no array map remembers
a wrong hash. -/

namespace LispRuntime

/-! ## Metadata that is carried over -/

/-- Whatever is made of the collection has the metadata of the collection. -/
structure Value.HandsDown (collection : Value) : Prop where
  change : ∀ change : Change,
    (change.persistent collection).Makes (Value.Carries collection.metadata?)
  emptied : (∀ name metadata, collection ≠ .symbol name metadata) →
    Attempt.Makes (ExceptT.lift collection.emptied) (Value.Carries collection.metadata?)

/-! ## Answers -/

namespace Moment

/-- The values cannot be told apart by what is read off them from front to back. -/
structure ShowsAlike (moment : Moment) (value other : Value) : Prop where
  display : ∀ machine : Machine, machine.KeepsRealized →
    InStep machine moment.world.deferred value.display other.display Eq
  compare : ∀ right rightToo, moment.Twins right rightToo → ∃ enough, ∀ machine : Machine,
    enough ≤ machine.limit →
      AgreeAt machine moment.world (value.compare right) (other.compare rightToo) Eq
  ask : ∀ inquiry : Value.Inquiry, ∃ enough, ∀ machine : Machine, enough ≤ machine.limit →
    AgreeAt machine moment.world (inquiry.ask value).run (inquiry.ask other).run
      (SameOutcome (Alike moment.world.deferred))
  count : (∀ cell, value ≠ .transient cell) → ∃ enough, ∀ machine : Machine,
    enough ≤ machine.limit →
      AgreeAt machine moment.world value.count.run other.count.run (SameOutcome Eq)
  emptied : ∀ machine : Machine,
    AgreeAt machine moment.world value.emptied other.emptied (Alike moment.world.deferred)

/-- A transient is there, and what is in it can be looked for. -/
def HasContents (moment : Moment) (value : Value) : Prop :=
  ∀ cell, value = .transient cell → ∃ state,
    moment.world.transients.get? cell.index = some state ∧
      ∀ editable, state = some editable → moment.Searchable (editable.contentsIn moment.world)

/-- The values cannot be told apart by looking for something either. -/
structure ServesAlike (moment : Moment) (value other : Value) : Prop where
  hash : ∃ enough, ∀ machine : Machine, enough ≤ machine.limit →
    AgreeAt machine moment.world value.hash other.hash Eq
  equal : ∀ right rightToo, moment.Twins right rightToo → ∃ enough, ∀ machine : Machine,
    enough ≤ machine.limit →
      AgreeAt machine moment.world (value.equal right) (other.equal rightToo) Eq
  getOr : ∀ key keyToo default defaultToo, moment.Twins key keyToo →
    Alike moment.world.deferred default defaultToo → moment.HasContents value →
    ∃ enough, ∀ machine : Machine, enough ≤ machine.limit →
      AgreeAt machine moment.world (value.getOr key default) (other.getOr keyToo defaultToo)
        (Alike moment.world.deferred)
  containsKey : ∀ key keyToo, moment.Twins key keyToo → ∃ enough, ∀ machine : Machine,
    enough ≤ machine.limit →
      AgreeAt machine moment.world (value.containsKey key) (other.containsKey keyToo) Eq
  change : ∀ change changeToo, moment.ChangeTwins change changeToo → ∃ enough,
    ∀ machine : Machine, enough ≤ machine.limit →
      AgreeAt machine moment.world (change.persistent value).run (changeToo.persistent other).run
        (SameOutcome (Alike moment.world.deferred))

section

variable {moment : Moment} {value other : Value}

/-- What goes in step where nothing is called, and has an answer there, agrees on any machine. -/
theorem agreeAt_of_inStep {α β : Type} {machine : Machine} {left : Run α} {right : Run β}
    {related : α → β → Prop} (made : Made left) (madeToo : Made right)
    (inStep : InStep machine.silent moment.world.deferred left right related)
    (ends : Gives machine.silent moment left fun _ _ => True) :
    AgreeAt machine moment.world left right related := by
  rcases ends with ⟨_, _, ended, _⟩
  rcases inStep _ (.refl _) with ⟨none, _⟩ | ⟨answer, answerToo, after, ran, ranToo, _, holds⟩
  · cases none.symm.trans ended
  · exact ⟨answer, answerToo, after, after, (made.quiet machine _ _ _ ran).1,
      (madeToo.quiet machine _ _ _ ranToo).1, holds⟩

theorem Twins.ask_agrees (twins : moment.Twins value other) (inquiry : Value.Inquiry) :
    ∃ enough, ∀ machine : Machine, enough ≤ machine.limit →
      AgreeAt machine moment.world (inquiry.ask value).run (inquiry.ask other).run
        (SameOutcome (Alike moment.world.deferred)) := by
  rcases twins.left with ⟨datum, read⟩
  refine ⟨datum.cost, fun machine within => ?_⟩
  have roomy : datum.cost ≤ machine.silent.limit := within
  exact agreeAt_of_inStep (.ask inquiry value) (.ask inquiry other)
    (Value.ask_inStep machine.silent_keepsRealized twins.alike inquiry)
    (Value.ask_answered roomy read inquiry)

theorem Twins.count_agrees (twins : moment.Twins value other)
    (settled : ∀ cell, value ≠ .transient cell) :
    ∃ enough, ∀ machine : Machine, enough ≤ machine.limit →
      AgreeAt machine moment.world value.count.run other.count.run (SameOutcome Eq) := by
  rcases twins.left with ⟨datum, read⟩
  refine ⟨datum.cost, fun machine within => ?_⟩
  have roomy : datum.cost ≤ machine.silent.limit := within
  exact agreeAt_of_inStep (.count value) (.count other)
    (Value.count_inStep machine.silent_keepsRealized twins.alike)
    (Value.count_answered roomy read settled)

theorem Twins.showsAlike (twins : moment.Twins value other) : moment.ShowsAlike value other where
  display _ keeps := Value.display_inStep keeps twins.alike
  compare _ _ others := twins.compare_agrees others
  ask := twins.ask_agrees
  count := twins.count_agrees
  emptied machine := twins.alike.emptied_agrees machine moment.world

theorem Twins.getOr_agrees_always (remembers : moment.RemembersRight)
    (twins : moment.Twins value other) {key keyToo default defaultToo : Value}
    (keyTwins : moment.Twins key keyToo)
    (alike : Alike moment.world.deferred default defaultToo)
    (hasContents : moment.HasContents value) :
    ∃ enough, ∀ machine : Machine, enough ≤ machine.limit →
      AgreeAt machine moment.world (value.getOr key default) (other.getOr keyToo defaultToo)
        (Alike moment.world.deferred) := by
  by_cases settled : ∀ cell, value ≠ .transient cell
  · exact twins.getOr_agrees remembers keyTwins alike settled
  · rcases not_forall.mp settled with ⟨cell, notOther⟩
    cases not_not.mp notOther
    rcases hasContents cell rfl with ⟨state, here, searchable⟩
    cases twins.alike
    exact keyTwins.getOr_transient_agrees remembers alike here searchable

theorem Twins.servesAlike (remembers : moment.RemembersRight) (twins : moment.Twins value other) :
    moment.ServesAlike value other where
  hash := twins.hash_agrees remembers
  equal _ _ others := twins.equal_agrees remembers others
  getOr _ _ _ _ keyTwins alike hasContents :=
    twins.getOr_agrees_always remembers keyTwins alike hasContents
  containsKey _ _ keyTwins := twins.containsKey_agrees remembers keyTwins
  change _ _ changes := twins.change_agrees remembers changes

end

end Moment

/-- Metadata is handed down, and apart from that nobody sees it, now or later. -/
theorem metadata_invisible (moment : Moment) :
    (∀ collection : Value, collection.HandsDown) ∧
    (∀ value other, moment.Twins value other → ∀ later, moment ≤ later →
      later.ShowsAlike value other) ∧
    (moment.RemembersRight → ∀ value other, moment.Twins value other → ∀ later, moment ≤ later →
      later.ServesAlike value other) := by
  refine ⟨fun collection => ⟨fun change => ?_, Value.emptied_carries⟩, ?_, ?_⟩
  · exact Value.change_carries change collection
  · exact fun _ _ twins _ le => (twins.later le).showsAlike
  · intro remembers _ _ twins later le
    exact (twins.later le).servesAlike fun bound => le.remembers bound (remembers bound)

/-! For example, an array map with metadata, on itself and on an element, was hashed while a lazy
seq in it failed. Since then the lazy seq has been realized, and there is a copy of the map from
which all metadata has been removed. -/

private def listOfOne : Datum := .sequence [.leaf (.integer 1)]

private def vectorOfThree : Datum := .sequence [.leaf (.integer 3)]

private def copiedDatum : Datum :=
  .map (Datum.arrange [Datum.entry (.leaf (.integer 1)) listOfOne,
    Datum.entry (.leaf (.integer 2)) vectorOfThree])

private def notes : Option Value := some (.sortedMap 3 [(.integer 0, .boolean true)] none)

private def annotatedEntries : List (Value × Value) :=
  [(.integer 1, .lazySeq ⟨0⟩), (.integer 2, .vector 1 [.integer 3] notes)]

private def bareEntries : List (Value × Value) :=
  [(.integer 1, .lazySeq ⟨0⟩), (.integer 2, .vector 2 [.integer 3] none)]

private def annotated : Value := .arrayMap 0 annotatedEntries notes

private def bare : Value := .arrayMap 1 bareEntries none

/-- The annotated map remembers this hash, and the copy the one that it has. -/
private def copied (hash : UInt32) : Moment where
  memory
    | .heap 0 | .deferred 0 => some listOfOne
    | .heap 1 | .heap 2 => some vectorOfThree
    | .map 0 | .map 1 => some copiedDatum
    | _ => none
  world :=
    { World.initial with
      addresses := 4
      maps :=
        ⟨(Store.empty.push (annotatedEntries.map some)).push (bareEntries.map some),
          (Store.empty.push ⟨0, 2, hash, false⟩).push ⟨1, 2, 2610839989, false⟩⟩
      deferred := Store.empty.push (.realized (.list 0 [.integer 1] none)) }
  heap_taken index datum known := by
    rcases index with _ | _ | _ | index
    · exact (by decide : 0 < 4)
    · exact (by decide : 1 < 4)
    · exact (by decide : 2 < 4)
    · cases known
  maps_sound handle record found live := by
    rcases handle with _ | _ | handle
    · cases found
      exact ⟨annotatedEntries, [], rfl, rfl, rfl, rfl, by decide⟩
    · cases found
      exact ⟨bareEntries, [], rfl, rfl, rfl, rfl, by decide⟩
    · cases found
  map_held handle datum known := by
    rcases handle with _ | _ | handle
    · exact ⟨annotatedEntries, _, [], rfl, rfl, rfl, rfl, by decide⟩
    · exact ⟨bareEntries, _, [], rfl, rfl, rfl, rfl, by decide⟩
    · cases known

private theorem hash_copiedDatum : copiedDatum.hash = 2610839989 := by decide +kernel

private theorem copied_right : (copied 2610839989).RemembersRight := by
  intro bound handle datum known _
  rcases handle with _ | _ | handle
  · cases known
    exact .inr hash_copiedDatum.symm
  · cases known
    exact .inr hash_copiedDatum.symm
  · cases known

private theorem copied_reads (hash : UInt32) {handle address : Nat} {metadata inner : Option Value}
    (placed : (copied hash).memory (.map handle) = some copiedDatum)
    (placedInside : (copied hash).memory (.heap address) = some vectorOfThree)
    (held : (copied hash).world.maps.entries handle =
      [(.integer 1, .lazySeq ⟨0⟩), (.integer 2, .vector address [.integer 3] inner)]) :
    (copied hash).WellFormed (.arrayMap handle
      [(.integer 1, .lazySeq ⟨0⟩), (.integer 2, .vector address [.integer 3] inner)] metadata) := by
  have number : ∀ index, (copied hash).Reads (.integer index) (.leaf (.integer index)) :=
    fun index => .leaf rfl nofun
  refine ⟨.map (Datum.arrange (List.zipWith Datum.entry
    [.leaf (.integer 1), .leaf (.integer 2)] [listOfOne, vectorOfThree])), ?_⟩
  refine .map rfl (.cons (number 1) (.cons (number 2) .nil)) (.cons ?_ (.cons ?_ .nil))
    ⟨held, by decide⟩ ?_
  · refine .sequence rfl (.lazySeq rfl rfl (.list (.cons (number 1) .nil))) ?_
    rintro _ ⟨⟩
    rfl
  · refine .sequence rfl (.vector (.cons (number 3) .nil)) ?_
    rintro _ ⟨⟩
    exact placedInside
  · rintro _ ⟨⟩
    exact placed

private theorem copied_twins (hash : UInt32) : (copied hash).Twins annotated bare where
  alike := .arrayMap (.refl _ _) (.cons (.same _) (.cons (.vector (.refl _ _)) .nil))
  left := copied_reads hash rfl rfl rfl
  right := copied_reads hash rfl rfl rfl

/-- With the hash that the map has now, nothing tells the two apart; with the one from then, their
hashes do. -/
theorem metadata_invisible_copied :
    ((copied 2610839989).RemembersRight ∧ (copied 2610839989).Twins annotated bare ∧
      annotated.HandsDown ∧ ∀ later, copied 2610839989 ≤ later →
        later.ShowsAlike annotated bare ∧ later.ServesAlike annotated bare) ∧
    (copied 494794006).ShowsAlike annotated bare ∧
      ¬(copied 494794006).ServesAlike annotated bare := by
  have twins := copied_twins 2610839989
  have now := metadata_invisible (copied 2610839989)
  have before := metadata_invisible (copied 494794006)
  refine ⟨⟨copied_right, twins, now.1 annotated, fun later le =>
      ⟨now.2.1 _ _ twins later le, now.2.2 copied_right _ _ twins later le⟩⟩,
    before.2.1 _ _ (copied_twins 494794006) _ (le_refl _), fun serves => ?_⟩
  rcases serves.hash with ⟨enough, agree⟩
  rcases agree ⟨fun _ _ _ _ => none, [], enough + 1⟩ (Nat.le_succ enough) with
    ⟨_, _, _, _, ran, ranToo, same⟩
  cases ran
  cases ranToo
  cases same

end LispRuntime
