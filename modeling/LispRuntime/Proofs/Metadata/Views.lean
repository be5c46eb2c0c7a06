import LispRuntime.Cell.Deref
import LispRuntime.Proofs.Sequence.Handing

/-! Metadata of the views of a sequence. A view that is made anew has none. But often there is
nothing to make: a list that is not empty and a cons cell are their own seqs, a lazy seq has its
seq from its body, and what follows the first element of a cons cell is its tail. All these are
handed out as they are, with the metadata that they have. -/

namespace LispRuntime

/-- The metadata of the value is nil. -/
def Value.IsBare (machine : Machine) (world : World) (value : Value) : Prop :=
  value.metadata machine world = some (.nil, world)

variable {machine : Machine} {world after : World} {value : Value}

namespace Value

theorem IsMadeAnew.isBare (isMadeAnew : value.IsMadeAnew) : value.IsBare machine world := by
  rcases isMadeAnew with ⟨-, rfl | ⟨address, items, rfl⟩⟩ <;> rfl

variable {seq rest next : Value}

theorem seq_isBare_iff (ran : value.seq.run machine world = some (.ok seq, after)) :
    seq.IsBare machine after ↔
      ∀ kept, HandsOut machine value world kept → kept.IsBare machine after := by
  constructor
  · intro isBare kept handsOut
    exact seq_eq_of_handsOut ran handsOut ▸ isBare
  · intro areBare
    rcases handsOut_or_isMadeAnew ran with handsOut | isMadeAnew
    · exact areBare seq handsOut
    · exact isMadeAnew.isBare

/-- A cons cell hands out its tail, and every other seq has a new list for its rest. -/
theorem rest_isBare_iff (ran : value.rest.run machine world = some (.ok rest, after)) :
    rest.IsBare machine after ↔ ∀ address first tail,
      HandsOut machine value world (.cons address first tail) → tail.IsBare machine after := by
  rcases Attempt.of_bind_eq_ok ran with ⟨seq, between, asked, taken⟩
  have isNew {address : Nat} {items : List Value}
      (notCons : ∀ address first tail, seq ≠ .cons address first tail)
      (made : rest = .list address items none) :
      rest.IsBare machine after ↔ ∀ address first tail,
        HandsOut machine value world (.cons address first tail) → tail.IsBare machine after := by
    refine iff_of_true (made ▸ rfl) fun address first tail handsOut => ?_
    exact absurd (seq_eq_of_handsOut asked handsOut) (notCons address first tail)
  split at taken
  case h_1 =>
    cases taken
    exact isNew nofun rfl
  case h_2 address first =>
    cases taken
    refine iff_of_true rfl fun address first tail handsOut => ?_
    cases seq_eq_of_handsOut asked handsOut
    rfl
  case h_3 address first tail notNil =>
    cases taken
    constructor
    · intro isBare address first tail handsOut
      cases seq_eq_of_handsOut asked handsOut
      exact isBare
    · intro areBare
      rcases handsOut_or_isMadeAnew asked with handsOut | ⟨-, isNil | ⟨_, _, isList⟩⟩
      · exact areBare _ _ _ handsOut
      · cases isNil
      · cases isList
  case h_4 notList notConsNil notCons =>
    cases taken
    exact isNew (fun address first tail same => notCons _ _ _ same) rfl

end Value

/-- What is taken out is given no metadata, whatever the collection had that was copied. -/
theorem Transient.persistent_makes_bare (cell : Transient.Cell) :
    (persistent cell).Makes fun value => ∀ machine world, value.IsBare machine world := by
  refine .last fun building => .last fun _ => .lift ?_
  intro machine world value after ran
  cases building <;> cases ran <;> exact fun _ _ => rfl

/-- A seq has metadata exactly if it was there before and has it: a list that is not empty keeps
its own, and a lazy seq passes on that of the list from which it takes its seq. The rest has
metadata exactly if it is the tail of a cons cell and the tail has it, and what comes next is
the seq of the rest. Nothing else has any, and what is taken out of a transient never has. -/
theorem views_isBare_iff (machine : Machine) (value : Value) (world : World) :
    (∀ seq after, value.seq.run machine world = some (.ok seq, after) →
      (seq.IsBare machine after ↔
        ∀ kept, HandsOut machine value world kept → kept.IsBare machine after)) ∧
    (∀ rest after, value.rest.run machine world = some (.ok rest, after) →
      (rest.IsBare machine after ↔ ∀ address first tail,
        HandsOut machine value world (.cons address first tail) → tail.IsBare machine after)) ∧
    (∀ next after, value.next.run machine world = some (.ok next, after) →
      ∃ rest between, value.rest.run machine world = some (.ok rest, between) ∧
        (next.IsBare machine after ↔
          ∀ kept, HandsOut machine rest between kept → kept.IsBare machine after)) ∧
    ∀ cell taken after, (Transient.persistent cell).run machine world = some (.ok taken, after) →
      taken.IsBare machine after := by
  refine ⟨fun _ _ => Value.seq_isBare_iff, fun _ _ => Value.rest_isBare_iff, ?_, ?_⟩
  · intro next after ran
    rcases Attempt.of_bind_eq_ok ran with ⟨rest, between, taken, asked⟩
    exact ⟨rest, between, taken, Value.seq_isBare_iff asked⟩
  · intro cell taken after ran
    exact Transient.persistent_makes_bare cell machine world taken after ran machine after

/-- A list keeps its metadata when its seq is asked for, and so do a vector and a list when the
rest of a cons cell in front of them is asked for, or what comes next. The seq of the vector
itself has none. -/
theorem views_keep_metadata :
    let machine : Machine := ⟨fun _ _ _ _ => none, [], 1⟩
    let given : Value := .sortedMap 1 [(.integer 1, .nil)] none
    let items : Value := .list 2 [.integer 1] (some given)
    let vector : Value := .vector 3 [.integer 1] (some given)
    (∃ seq after, items.seq.run machine World.initial = some (.ok seq, after) ∧
      ¬seq.IsBare machine after) ∧
    (∃ seq after, vector.seq.run machine World.initial = some (.ok seq, after) ∧
      seq.IsBare machine after) ∧
    (∃ rest after, (Value.cons 4 .nil vector).rest.run machine World.initial =
      some (.ok rest, after) ∧ ¬rest.IsBare machine after) ∧
    ∃ next after, (Value.cons 4 .nil items).next.run machine World.initial =
      some (.ok next, after) ∧ ¬next.IsBare machine after := by
  intro machine given items vector
  have views := fun value => views_isBare_iff machine value World.initial
  refine ⟨⟨_, _, rfl, ?_⟩, ⟨_, _, rfl, ?_⟩, ⟨_, _, rfl, ?_⟩, ⟨_, _, rfl, ?_⟩⟩
  · rw [(views items).1 _ _ rfl]
    exact fun areBare => nomatch areBare items (.own rfl)
  · rw [(views vector).1 _ _ rfl]
    intro kept handsOut
    have notLazy : ∀ cell, vector ≠ .lazySeq cell := fun cell => Value.noConfusion
    cases ((HandsOut.iff_of_not_lazy notLazy).mp handsOut).1
  · rw [(views (.cons 4 .nil vector)).2.1 _ _ rfl]
    exact fun areBare => nomatch areBare _ _ _ (.own rfl)
  · rcases (views (.cons 4 .nil items)).2.2.1 _ _ rfl with ⟨rest, between, taken, iff⟩
    rw [iff]
    cases taken
    exact fun areBare => nomatch areBare items (.own rfl)

end LispRuntime
