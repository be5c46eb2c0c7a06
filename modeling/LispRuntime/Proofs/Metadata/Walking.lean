import LispRuntime.Collection.Access
import LispRuntime.Proofs.Metadata.Alike

/-! Walks over alike values go in step: they realize the same, allocate as much and meet alike
elements, and where one fails the other does with the same error. -/

namespace LispRuntime

section

variable {machine : Machine} {cells : Store Deferred} {left right : Value}
  {items others : List Value} {entries otherEntries : List (Value × Value)}

/-! ## Seqs -/

namespace Value

theorem newList_inStep (alike : AllAlike cells items others) (metadata other : Option Value) :
    InStep machine cells (newList items metadata) (newList others other) (Alike cells) :=
  fun _ recalls => .inr ⟨_, _, _, rfl, rfl, recalls, .list alike⟩

theorem newVector_inStep (alike : AllAlike cells items others) (metadata other : Option Value) :
    InStep machine cells (newVector items metadata) (newVector others other) (Alike cells) :=
  fun _ recalls => .inr ⟨_, _, _, rfl, rfl, recalls, .vector alike⟩

theorem listSeq_inStep (alike : AllAlike cells items others) :
    InStep machine cells (listSeq items) (listSeq others) (Alike cells) := by
  cases alike with
  | nil => exact .pure (.same .nil)
  | cons first rest => exact newList_inStep (.cons first rest) none none

theorem entrySeq_inStep (alike : List.Forall₂ (EntriesAlike cells) entries otherEntries) :
    InStep machine cells (entrySeq entries) (entrySeq otherEntries) (Alike cells) := by
  refine (InStep.mapM (alike.imp fun entry other both => ?_)).bind
    fun vectors otherVectors vectorsAlike => listSeq_inStep (.of_forall₂ vectorsAlike)
  exact newVector_inStep (.cons both.1 (.cons both.2 .nil)) none none

/-- What has been realized is at hand. -/
theorem force_inStep {cell other : Ref .deferred} {seq otherSeq : Value}
    (realized : cells.get? cell.index = some (.realized seq))
    (otherRealized : cells.get? other.index = some (.realized otherSeq))
    (alike : Alike cells seq otherSeq) (complete completeToo : Value → Attempt Value) :
    InStep machine cells (force cell complete).run (force other completeToo).run
      (SameOutcome (Alike cells)) :=
  fun world recalls => .inr ⟨_, _, world, force_run_realized (recalls _ _ realized),
    force_run_realized (recalls _ _ otherRealized), recalls, .ok alike⟩

theorem seqWithin_inStep (keeps : machine.KeepsRealized) (alike : Alike cells left right)
    (fuel : Nat) :
    InStep machine cells (left.seqWithin fuel).run (right.seqWithin fuel).run
      (SameOutcome (Alike cells)) := by
  rcases fuel with _ | fuel
  · exact .stuck
  have whole := alike
  cases alike with
  | same =>
      refine (InStep.refl keeps (.seqWithin (fuel + 1) left)).weaken ?_
      rintro outcome _ rfl
      exact .refl .same outcome
  | string => exact (listSeq_inStep (.refl cells _)).lift
  | symbol => exact .pure (.error _)
  | list alike =>
      cases alike with
      | nil => exact .pure (.ok (.same .nil))
      | cons => exact .pure (.ok whole)
  | cons => exact .pure (.ok whole)
  | vector alike => exact (listSeq_inStep alike).lift
  | lazySeq realized otherRealized alike => exact force_inStep realized otherRealized alike _ _
  | arrayMap keys values | hashMap _ keys values | sortedMap keys values =>
      exact (entrySeq_inStep (AllAlike.entries keys values)).lift
  | hashSet _ alike | sortedSet alike => exact (listSeq_inStep alike).lift

theorem seq_inStep (keeps : machine.KeepsRealized) (alike : Alike cells left right) :
    InStep machine cells left.seq.run right.seq.run (SameOutcome (Alike cells)) :=
  InStep.limit.first fun fuel _ same => same ▸ seqWithin_inStep keeps alike fuel

end Value

/-! ## Cursors -/

/-- What a step of a walk comes to when it has asked for a seq. -/
def Cursor.ofSeq : Except Error Value → Cursor.Yield × Cursor
  | .error error => (some (.error error), .done)
  | .ok .nil => (none, .done)
  | .ok (.cons _ first rest) => (some (.ok first), .pending rest)
  | .ok (.list _ elements _) => nextItem elements
  | .ok other => (some (.error (.wrongType "seq" "seq" other.typeName)), .done)

theorem Cursor.next_pending {value : Value} (linked : value.indexed? = none) :
    next (.pending value) = do return ofSeq (← Run.outcome value.seq) := by
  have goesOn : ∀ outcome : Except Error Value, (match outcome with
      | .error error => Pure.pure (some (.error error), done)
      | .ok .nil => Pure.pure (none, done)
      | .ok (.cons _ first rest) => Pure.pure (some (.ok first), pending rest)
      | .ok (.list _ elements _) => Pure.pure (nextItem elements)
      | .ok other => Pure.pure (some (.error (.wrongType "seq" "seq" other.typeName)), done)) =
        (Pure.pure (ofSeq outcome) : Run (Yield × Cursor)) := by
    rintro (error | value)
    · rfl
    · cases value <;> rfl
  cases value <;> first | (cases linked; done) | exact bind_congr goesOn

/-- Cursors that are going to meet alike elements. -/
inductive CursorsAlike (cells : Store Deferred) : Cursor → Cursor → Prop
  | pending {left right : Value} (alike : Alike cells left right) :
      CursorsAlike cells (.pending left) (.pending right)
  | items {items others : List Value} (alike : AllAlike cells items others) :
      CursorsAlike cells (.items items) (.items others)
  | done : CursorsAlike cells .done .done

/-- What is met by alike steps. -/
structure StepsAlike (cells : Store Deferred) (step other : Cursor.Yield × Cursor) : Prop where
  yields : Option.Rel (SameOutcome (Alike cells)) step.1 other.1
  rest : CursorsAlike cells step.2 other.2

namespace Cursor

theorem nextItem_alike (alike : AllAlike cells items others) :
    StepsAlike cells (nextItem items) (nextItem others) := by
  cases alike with
  | nil => exact ⟨.none, .done⟩
  | cons first rest => exact ⟨.some (.ok first), .items rest⟩

theorem ofSeq_alike {outcome other : Except Error Value}
    (same : SameOutcome (Alike cells) outcome other) :
    StepsAlike cells (ofSeq outcome) (ofSeq other) := by
  cases same with
  | error error => exact ⟨.some (.error error), .done⟩
  | @ok seq _ alike =>
      cases alike with
      | list alike => exact nextItem_alike alike
      | cons firstAlike restAlike => exact ⟨.some (.ok firstAlike), .pending restAlike⟩
      | same =>
          cases seq
          case nil => exact ⟨.none, .done⟩
          case list items _ => exact nextItem_alike (.refl cells items)
          case cons first rest => exact ⟨.some (.ok (.same first)), .pending (.same rest)⟩
          all_goals exact ⟨.some (.error _), .done⟩
      | string | symbol | vector | lazySeq | arrayMap | hashMap | sortedMap | hashSet
        | sortedSet => exact ⟨.some (.error _), .done⟩

theorem next_inStep (keeps : machine.KeepsRealized) {cursor other : Cursor}
    (alike : CursorsAlike cells cursor other) :
    InStep machine cells cursor.next other.next (StepsAlike cells) := by
  cases alike with
  | done => exact .pure ⟨.none, .done⟩
  | items alike => exact .pure (nextItem_alike alike)
  | @pending left right alike =>
      cases indexed : left.indexed? with
      | none =>
          have indexedToo : right.indexed? = none := by
            cases alike <;> first | exact indexed | cases indexed
          rw [next_pending indexed, next_pending indexedToo]
          exact InStep.map (Value.seq_inStep keeps alike) fun _ _ => ofSeq_alike
      | some items =>
          cases alike with
          | same =>
              cases left <;> cases indexed <;> exact .pure (nextItem_alike (.refl cells _))
          | list alike | vector alike => exact .pure (nextItem_alike alike)
          | string | symbol | cons | lazySeq | arrayMap | hashMap | sortedMap | hashSet
            | sortedSet => cases indexed

end Cursor

/-! ## Element by element -/

namespace Value

theorem first_inStep (keeps : machine.KeepsRealized) (alike : Alike cells left right) :
    InStep machine cells left.first.run right.first.run (SameOutcome (Alike cells)) := by
  refine (seq_inStep keeps alike).andThen fun seq otherSeq alikeSeq => ?_
  cases alikeSeq with
  | same =>
      cases seq
      case list items _ => cases items <;> exact .pure (.ok (.same _))
      all_goals exact .pure (.ok (.same _))
  | list alike =>
      cases alike with
      | nil => exact .pure (.ok (.same .nil))
      | cons first => exact .pure (.ok first)
  | cons firstAlike => exact .pure (.ok firstAlike)
  | string | symbol | vector | lazySeq | arrayMap | hashMap | sortedMap | hashSet | sortedSet =>
      exact .pure (.ok (.same .nil))

theorem rest_inStep (keeps : machine.KeepsRealized) (alike : Alike cells left right) :
    InStep machine cells left.rest.run right.rest.run (SameOutcome (Alike cells)) := by
  refine (seq_inStep keeps alike).andThen fun seq otherSeq alikeSeq => ?_
  have empty : InStep machine cells (newList [] none) (newList [] none) (Alike cells) :=
    newList_inStep .nil none none
  cases alikeSeq with
  | same =>
      cases seq
      case list items _ => exact (newList_inStep (.refl cells _) none none).lift
      case cons first rest =>
        cases rest
        case nil => exact empty.lift
        all_goals exact .pure (.ok (.same _))
      all_goals exact empty.lift
  | list alike => exact (newList_inStep alike.tail none none).lift
  | @cons _ _ _ _ rest _ _ restAlike =>
      have whole := restAlike
      cases restAlike with
      | same =>
          cases rest
          case nil => exact empty.lift
          all_goals exact .pure (.ok (.same _))
      | string | symbol | list | vector | cons | lazySeq | arrayMap | hashMap | sortedMap | hashSet
        | sortedSet => exact .pure (.ok whole)
  | string | symbol | vector | lazySeq | arrayMap | hashMap | sortedMap | hashSet | sortedSet =>
      exact empty.lift

theorem next_inStep (keeps : machine.KeepsRealized) (alike : Alike cells left right) :
    InStep machine cells left.next.run right.next.run (SameOutcome (Alike cells)) :=
  (rest_inStep keeps alike).andThen fun _ _ alikeRest => seq_inStep keeps alikeRest

end Value

/-! ## To the end, or up to an index -/

theorem Cursor.foldUntil_inStep (keeps : machine.KeepsRealized) {σ : Type}
    {visit : σ → Value → Attempt (σ ⊕ σ)}
    (visits : ∀ state value other, Alike cells value other →
      InStep machine cells (visit state value).run (visit state other).run (SameOutcome Eq))
    (fuel : Nat) (state : σ) {cursor other : Cursor} (alike : CursorsAlike cells cursor other) :
    InStep machine cells (foldUntil visit fuel state cursor).run
      (foldUntil visit fuel state other).run (SameOutcome Eq) := by
  induction fuel generalizing state cursor other with
  | zero => exact .stuck
  | succ fuel induction =>
      refine (next_inStep keeps alike).first ?_
      rintro ⟨step, rest⟩ ⟨otherStep, otherRest⟩ ⟨yields, restAlike⟩
      cases yields with
      | none => exact .pure (.ok rfl)
      | some same =>
          cases same with
          | error error => exact .pure (.error error)
          | ok alikeItem =>
              refine (visits state _ _ alikeItem).andThen ?_
              rintro visited _ rfl
              cases visited with
              | inl state => exact induction state restAlike
              | inr answer => exact .pure (.ok rfl)

theorem Value.countSteps_inStep (keeps : machine.KeepsRealized) (alike : Alike cells left right) :
    InStep machine cells left.countSteps.run right.countSteps.run (SameOutcome Eq) := by
  refine InStep.limit.first ?_
  rintro fuel _ rfl
  apply Cursor.foldUntil_inStep keeps _ fuel 0 (.pending alike)
  intro count _ _ _
  exact .pure (.ok rfl)

theorem Value.count_inStep (keeps : machine.KeepsRealized) (alike : Alike cells left right) :
    InStep machine cells left.count.run right.count.run (SameOutcome Eq) := by
  have whole := alike
  cases alike with
  | same =>
      cases left
      case cons | lazySeq => exact countSteps_inStep keeps whole
      case transient cell =>
        refine (InStep.refl keeps (.plain (.transientCount cell))).weaken ?_
        rintro outcome _ rfl
        exact .refl (fun _ => rfl) outcome
      case nil | string | list | vector | arrayMap | hashMap | sortedMap | hashSet | sortedSet =>
        exact .pure (.ok rfl)
      all_goals exact .pure (.error _)
  | string => exact .pure (.ok rfl)
  | symbol => exact .pure (.error _)
  | list alike | vector alike | sortedSet alike =>
      exact .pure (.ok alike.forall₂.length_eq)
  | hashSet _ alike =>
      exact .pure (.ok alike.forall₂.length_eq)
  | cons | lazySeq => exact countSteps_inStep keeps whole
  | arrayMap keys values | hashMap _ keys values | sortedMap keys values =>
      exact .pure (.ok (AllAlike.entries keys values).length_eq)

theorem Value.elementAhead_inStep (keeps : machine.KeepsRealized) (fuel ahead passed : Nat)
    {cursor other : Cursor} (alike : CursorsAlike cells cursor other) :
    InStep machine cells (elementAhead fuel ahead passed cursor).run
      (elementAhead fuel ahead passed other).run
      (SameOutcome (Sum.LiftRel (Alike cells) Eq)) := by
  induction fuel generalizing ahead passed cursor other with
  | zero => exact .stuck
  | succ fuel induction =>
      refine (Cursor.next_inStep keeps alike).first ?_
      rintro ⟨step, rest⟩ ⟨otherStep, otherRest⟩ ⟨yields, restAlike⟩
      cases yields with
      | none => exact .pure (.ok (.inr rfl))
      | some same =>
          cases same with
          | error error => exact .pure (.error error)
          | ok alikeItem =>
              cases ahead with
              | zero => exact .pure (.ok (.inl alikeItem))
              | succ ahead => exact induction ahead (passed + 1) restAlike

/-- Elements at hand are counted out, whatever holds them. -/
theorem Value.nth_atHand_inStep (alike : AllAlike cells items others) (index : UInt64) :
    InStep machine cells ((list 0 items none).nth index).run ((list 0 others none).nth index).run
      (SameOutcome (Alike cells)) := by
  unfold nth
  dsimp only
  rw [← alike.forall₂.length_eq]
  have there := alike.getElem? index.toNat
  generalize items[index.toNat]? = item, others[index.toNat]? = other at there ⊢
  cases there with
  | none => exact .pure (.error _)
  | some alike => exact .pure (.ok alike)

/-- What a walk to an index comes to, which may have ended before it. -/
def Value.arrived (index : UInt64) : Value ⊕ Nat → Attempt Value
  | .inl item => return item
  | .inr length => throw (.indexOutOfBounds index.toInt64 length)

theorem Value.nth_walked_inStep (keeps : machine.KeepsRealized) (alike : Alike cells left right)
    (index : UInt64) :
    InStep machine cells
      (do arrived index (← elementAhead (← Run.limit) index.toNat 0 (.pending left)) :
        Attempt Value).run
      (do arrived index (← elementAhead (← Run.limit) index.toNat 0 (.pending right)) :
        Attempt Value).run
      (SameOutcome (Alike cells)) := by
  refine InStep.limit.first ?_
  rintro fuel _ rfl
  refine (elementAhead_inStep keeps fuel _ 0 (.pending alike)).andThen ?_
  rintro _ _ (alikeItem | same)
  · exact .pure (.ok alikeItem)
  · cases same
    exact .pure (.error _)

theorem Value.nth_inStep (keeps : machine.KeepsRealized) (alike : Alike cells left right)
    (index : UInt64) :
    InStep machine cells (left.nth index).run (right.nth index).run
      (SameOutcome (Alike cells)) := by
  have whole := alike
  cases alike with
  | same =>
      cases left
      case cons | lazySeq => exact nth_walked_inStep keeps whole index
      case list items _ | vector items _ => exact nth_atHand_inStep (.refl cells items) index
      all_goals exact .pure (.error _)
  | list alike | vector alike => exact nth_atHand_inStep alike index
  | cons | lazySeq => exact nth_walked_inStep keeps whole index
  | string | symbol | arrayMap | hashMap | sortedMap | hashSet | sortedSet =>
      exact .pure (.error _)

theorem Value.peek_inStep (alike : Alike cells left right) :
    InStep machine cells left.peek.run right.peek.run (SameOutcome (Alike cells)) := by
  cases alike with
  | same =>
      cases left
      case nil | list | vector => exact .pure (.ok (.same _))
      all_goals exact .pure (.error _)
  | list alike =>
      cases alike with
      | nil => exact .pure (.ok (.same .nil))
      | cons first => exact .pure (.ok first)
  | vector alike => exact .pure (.ok alike.getLast)
  | string | symbol | cons | lazySeq | arrayMap | hashMap | sortedMap | hashSet | sortedSet =>
      exact .pure (.error _)

end

end LispRuntime
