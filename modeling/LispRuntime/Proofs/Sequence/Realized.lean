import LispRuntime.Proofs.Metadata.Printing
import LispRuntime.Proofs.Sequence.Handing
import LispRuntime.Sequence.Reduce

/-! Lazy seqs that are made from a value, beside lazy seqs whose bodies answer with it. A body's
answer is asked for its seq, and that is what the lazy seq is realized to. A value that is given
to begin with is kept as it is, and readers that expect a seq find something else in its place
unless it is one. -/

namespace LispRuntime

variable {machine : Machine} {now : World}

/-- What is looked at first is the same for both. -/
theorem Run.run_looked_congr {α β : Type} {look : Run α} {answer : α} {between : World}
    {left right : α → Run β} (looked : look machine now = some (answer, between))
    (same : left answer machine between = right answer machine between) :
    (look >>= left) machine now = (look >>= right) machine now :=
  (run_bind looked).trans (same.trans (run_bind looked).symm)

/-- Both take as many steps as the machine allows. -/
theorem Attempt.run_limit_congr {α : Type} {left right : Nat → Attempt α}
    (same : (left machine.limit).run machine now = (right machine.limit).run machine now) :
    ((liftM Run.limit : Attempt Nat) >>= left).run machine now =
      ((liftM Run.limit : Attempt Nat) >>= right).run machine now :=
  (run_first rfl).trans (same.trans (run_first rfl).symm)

/-! ## Walks that begin alike

Once they have taken the same first step, two walks are one. -/

section

variable {left right : Cursor} (same : left.next machine now = right.next machine now)
include same

namespace Cursor

theorem foldUntil_congr {σ : Type} (visit : σ → Value → Attempt (σ ⊕ σ)) (fuel : Nat)
    (state : σ) :
    (foldUntil visit fuel state left).run machine now =
      (foldUntil visit fuel state right).run machine now := by
  cases fuel with
  | zero => rfl
  | succ fuel => exact Attempt.run_first_congr same

end Cursor

namespace Value

theorem takeSteps_congr (count : Nat) :
    takeSteps count left machine now = takeSteps count right machine now := by
  cases count with
  | zero => rfl
  | succ count => exact Run.run_bind_congr same fun _ => rfl

theorem elementAhead_congr (fuel ahead passed : Nat) :
    (elementAhead fuel ahead passed left).run machine now =
      (elementAhead fuel ahead passed right).run machine now := by
  cases fuel with
  | zero => rfl
  | succ fuel => exact Attempt.run_first_congr same

theorem equalCursors_congr_left (equal : Value → Value → Run Bool) (fuel : Nat)
    (cursor : Cursor) :
    equalCursors equal fuel left cursor machine now =
      equalCursors equal fuel right cursor machine now := by
  cases fuel with
  | zero => rfl
  | succ fuel => exact Run.run_bind_congr same fun _ => rfl

end Value

theorem Printing.steps_congr (display : Value → Run String) (limit : Option Nat)
    (fuel index : Nat) :
    steps display limit fuel index left machine now =
      steps display limit fuel index right machine now := by
  cases fuel with
  | zero => rfl
  | succ fuel => exact Run.run_bind_congr same fun _ => rfl

end

/-- The second walk has to begin alike whatever the first step of the other one has done. -/
theorem Value.equalCursors_congr_right (keeps : machine.KeepsRealized) {left right : Cursor}
    (same : ∀ world : World, world.Recalls now.deferred →
      left.next machine world = right.next machine world)
    (equal : Value → Value → Run Bool) (fuel : Nat) (cursor : Cursor) :
    equalCursors equal fuel cursor left machine now =
      equalCursors equal fuel cursor right machine now := by
  cases fuel with
  | zero => rfl
  | succ fuel =>
      unfold equalCursors
      cases stepped : cursor.next machine now with
      | none => rw [Run.run_bind_none stepped, Run.run_bind_none stepped]
      | some answered =>
          rw [Run.run_bind stepped, Run.run_bind stepped]
          have recalls := (Made.step cursor).recalls keeps stepped
          exact Run.run_bind_congr (same answered.2 recalls) fun _ => rfl

/-! ## Lazy seqs that hold the same -/

/-- No reader can tell one value from the other, apart from asking whether it is the one itself. -/
structure Value.Indistinguishable (machine : Machine) (now : World) (one other : Value) : Prop where
  seq : one.seq.run machine now = other.seq.run machine now
  first : one.first.run machine now = other.first.run machine now
  rest : one.rest.run machine now = other.rest.run machine now
  next : one.next.run machine now = other.next.run machine now
  walk : ∀ count, takeSteps count (.pending one) machine now =
    takeSteps count (.pending other) machine now
  count : one.count.run machine now = other.count.run machine now
  nth : ∀ index, (one.nth index).run machine now = (other.nth index).run machine now
  reduce : ∀ function start, (one.reduce function start).run machine now =
    (other.reduce function start).run machine now
  reduceOwn : ∀ function, (one.reduceOwn function).run machine now =
    (other.reduceOwn function).run machine now
  equal : ∀ third, third ≠ one → third ≠ other →
    one.equal third machine now = other.equal third machine now ∧
      third.equal one machine now = third.equal other machine now
  display : one.display machine now = other.display machine now
  inspect : one.inspect machine now = other.inspect machine now

namespace Value

variable {one other : Ref .deferred} {seq : Value}

theorem seq_run_realized (hasSteps : 0 < machine.limit)
    (realized : now.deferred.get? one.index = some (.realized seq)) :
    (lazySeq one).seq.run machine now = some (.ok seq, now) := by
  rcases Nat.exists_eq_add_of_lt hasSteps with ⟨fuel, enough⟩
  have looked : ((lazySeq one).seqWithin machine.limit).run machine now = some (.ok seq, now) := by
    rw [enough]
    exact force_run_realized realized
  exact (Attempt.run_first rfl).trans looked

theorem seq_run_without_steps (noSteps : machine.limit = 0) (value : Value) :
    value.seq.run machine now = none := by
  have stuck : (value.seqWithin machine.limit).run machine now = none := by
    rw [noSteps]
    rfl
  exact (Attempt.run_first rfl).trans stuck

/-- It does not matter which of two lazy seqs that hold the same is asked. -/
theorem seq_run_congr (realized : now.deferred.get? one.index = some (.realized seq))
    (realizedToo : now.deferred.get? other.index = some (.realized seq)) :
    (lazySeq one).seq.run machine now = (lazySeq other).seq.run machine now := by
  rcases Nat.eq_zero_or_pos machine.limit with noSteps | hasSteps
  · rw [seq_run_without_steps noSteps, seq_run_without_steps noSteps]
  · rw [seq_run_realized hasSteps realized, seq_run_realized hasSteps realizedToo]

theorem next_run_congr (realized : now.deferred.get? one.index = some (.realized seq))
    (realizedToo : now.deferred.get? other.index = some (.realized seq)) :
    (Cursor.pending (lazySeq one)).next machine now =
      (Cursor.pending (lazySeq other)).next machine now :=
  Run.run_bind_congr (seq_run_congr realized realizedToo) fun _ => rfl

end Value

/-! ### Printing and comparing them -/

namespace Value

variable {one other : Ref .deferred} {seq third : Value}

theorem inspect_run_realized (realized : now.deferred.get? one.index = some (.realized seq)) :
    (lazySeq one).inspect machine now = seq.display machine now :=
  Run.run_bind (deferredAt_run realized)

theorem not_identical_lazySeq (different : third ≠ lazySeq one) :
    (lazySeq one).identical third = false ∧ third.identical (lazySeq one) = false := by
  cases third with
  | lazySeq cell =>
      have apart : cell ≠ one := fun same => different (congrArg lazySeq same)
      exact ⟨beq_false_of_ne apart.symm, beq_false_of_ne apart⟩
  | _ => exact ⟨rfl, rfl⟩

theorem equalWithin_lazySeq_left (different : third ≠ lazySeq one) (fuel : Nat) :
    equalWithin (fuel + 1) (lazySeq one) third =
      if third.isSequential then
        equalCursors (equalWithin fuel) fuel (.pending (lazySeq one)) (.pending third)
      else return false := by
  unfold equalWithin
  rw [if_neg (by simp [(not_identical_lazySeq different).1])]
  cases third <;> rfl

theorem equalWithin_lazySeq_right (different : third ≠ lazySeq one) (fuel : Nat) :
    equalWithin (fuel + 1) third (lazySeq one) =
      if third.isSequential then
        equalCursors (equalWithin fuel) fuel (.pending third) (.pending (lazySeq one))
      else return false := by
  unfold equalWithin
  rw [if_neg (by simp [(not_identical_lazySeq different).2])]
  cases third <;> rfl

section

variable (realized : now.deferred.get? one.index = some (.realized seq))
  (realizedToo : now.deferred.get? other.index = some (.realized seq))
include realized realizedToo

theorem equalWithin_congr_left (notOne : third ≠ lazySeq one) (notOther : third ≠ lazySeq other)
    (fuel : Nat) :
    equalWithin fuel (lazySeq one) third machine now =
      equalWithin fuel (lazySeq other) third machine now := by
  cases fuel with
  | zero => rfl
  | succ fuel =>
      rw [equalWithin_lazySeq_left notOne, equalWithin_lazySeq_left notOther]
      split
      · exact equalCursors_congr_left (next_run_congr realized realizedToo) _ _ _
      · rfl

theorem equalWithin_congr_right (keeps : machine.KeepsRealized) (notOne : third ≠ lazySeq one)
    (notOther : third ≠ lazySeq other) (fuel : Nat) :
    equalWithin fuel third (lazySeq one) machine now =
      equalWithin fuel third (lazySeq other) machine now := by
  cases fuel with
  | zero => rfl
  | succ fuel =>
      rw [equalWithin_lazySeq_right notOne, equalWithin_lazySeq_right notOther]
      split
      · refine equalCursors_congr_right keeps (fun world recalls => ?_) _ _ _
        exact next_run_congr (recalls _ _ realized) (recalls _ _ realizedToo)
      · rfl

theorem displayWithin_congr (fuel : Nat) :
    displayWithin fuel (lazySeq one) machine now =
      displayWithin fuel (lazySeq other) machine now := by
  cases fuel with
  | zero => rfl
  | succ fuel =>
      have sameStep : (Cursor.pending (lazySeq one)).next machine now =
          (Cursor.pending (lazySeq other)).next machine now :=
        next_run_congr realized realizedToo
      exact Run.run_looked_congr rfl
        (Run.run_bind_congr (Printing.steps_congr sameStep _ _ _ _) fun _ => rfl)

end

/-- Lazy seqs that hold the same cannot be told apart. -/
theorem indistinguishable_of_same (keeps : machine.KeepsRealized)
    (realized : now.deferred.get? one.index = some (.realized seq))
    (realizedToo : now.deferred.get? other.index = some (.realized seq)) :
    Indistinguishable machine now (lazySeq one) (lazySeq other) := by
  have same : (lazySeq one).seq.run machine now = (lazySeq other).seq.run machine now :=
    seq_run_congr realized realizedToo
  have sameStep : (Cursor.pending (lazySeq one)).next machine now =
      (Cursor.pending (lazySeq other)).next machine now :=
    next_run_congr realized realizedToo
  have sameRest : (lazySeq one).rest.run machine now = (lazySeq other).rest.run machine now :=
    Attempt.run_bind_left_congr same
  have sameFold {σ : Type} (visit : σ → Value → Attempt (σ ⊕ σ)) (state : σ) :=
    Cursor.foldUntil_congr sameStep visit machine.limit state
  constructor
  case seq => exact same
  case first => exact Attempt.run_bind_left_congr same
  case rest => exact sameRest
  case next => exact Attempt.run_bind_left_congr sameRest
  case walk => exact takeSteps_congr sameStep
  case count => exact Attempt.run_limit_congr (sameFold _ _)
  case nth =>
    intro index
    have sameAhead := elementAhead_congr sameStep machine.limit index.toNat 0
    exact Attempt.run_limit_congr (Attempt.run_bind_left_congr sameAhead)
  case reduce => exact fun function start => Attempt.run_limit_congr (sameFold _ _)
  case reduceOwn => exact fun function => Attempt.run_first_congr sameStep
  case equal =>
    intro third notOne notOther
    exact ⟨Run.run_looked_congr rfl
        (equalWithin_congr_left realized realizedToo notOne notOther _),
      Run.run_looked_congr rfl
        (equalWithin_congr_right realized realizedToo keeps notOne notOther _)⟩
  case display => exact Run.run_looked_congr rfl (displayWithin_congr realized realizedToo _)
  case inspect =>
    exact (inspect_run_realized realized).trans (inspect_run_realized realizedToo).symm

end Value

/-! ## Lazy seqs that are made from a value -/

/-- What a walk meets where it should have found a seq. An empty list has no elements, and
everything else is an error. -/
def Value.inPlaceOfSeq : Value → Cursor.Yield
  | list .. => none
  | other => some (.error (.wrongType "seq" "seq" other.typeName))

namespace Value

variable {given : Ref .deferred} {value : Value}

/-- The first element of what is not a seq is nil. -/
theorem first_run_given (hasSteps : 0 < machine.limit) (notOwn : value.isOwnSeq = false)
    (isGiven : now.deferred.get? given.index = some (.realized value)) :
    (lazySeq given).first.run machine now = some (.ok nil, now) := by
  refine (Attempt.run_bind_ok (seq_run_realized hasSteps isGiven)).trans ?_
  cases value with
  | cons => cases notOwn
  | list address items metadata =>
      cases items with
      | nil => rfl
      | cons => cases notOwn
  | _ => rfl

theorem next_run_given (hasSteps : 0 < machine.limit) (notOwn : value.isOwnSeq = false)
    (isGiven : now.deferred.get? given.index = some (.realized value)) :
    (Cursor.pending (lazySeq given)).next machine now =
      some ((value.inPlaceOfSeq, .done), now) := by
  refine (Run.run_bind (seq_run_realized hasSteps isGiven)).trans ?_
  cases value with
  | nil | cons => cases notOwn
  | list address items metadata =>
      cases items with
      | nil => rfl
      | cons => cases notOwn
  | _ => rfl

end Value

/-- The answer of the body of a lazy seq, and what was made of it. -/
theorem Opens.of_called {forced : Ref .deferred} {before between after : World}
    {body value seq : Value}
    (pending : before.deferred.get? forced.index = some (.pending body))
    (called : Application.Made machine
      ⟨body, [], before.settingDeferred forced.index (.running body), .ok value, between⟩)
    (asked : (Value.lazySeq forced).seq.run machine before = some (.ok seq, after)) :
    ∃ cells bodies last, Opens machine value between cells bodies (.ok seq) last := by
  rcases Value.exists_opens_of_seq asked with ⟨cells, bodies, opens⟩
  cases opens with
  | atHand notLazy => exact absurd rfl (notLazy _)
  | recalls realized => cases pending.symm.trans realized
  | answers again calledAgain opens =>
      cases pending.symm.trans again
      cases called.symm.trans calledAgain
      exact ⟨_, _, _, opens⟩

section

variable {before between after : World} {body value seq : Value}

/-- A lazy seq is made from a value. Another one has been forced whose body answered with that
value. The two cannot be told apart exactly if the value is the seq that was made of it, which is
so if it is nil, a list that is not empty or a cons cell, and of all other values, unless they
are lazy, it is not. Then the first lazy seq has something for its seq that is none: its first
element is nil, and a walk over it ends at once, with an error unless it is an empty list. -/
theorem given_indistinguishable_iff (given forced : Ref .deferred) (keeps : machine.KeepsRealized)
    (pending : before.deferred.get? forced.index = some (.pending body))
    (called : machine.call machine.held body [] (before.settingDeferred forced.index
      (.running body)) = some (.ok value, between))
    (asked : (Value.lazySeq forced).seq.run machine before = some (.ok seq, after))
    (isGiven : now.deferred.get? given.index = some (.realized value))
    (isForced : now.deferred.get? forced.index = some (.realized seq)) :
    (Value.Indistinguishable machine now (.lazySeq given) (.lazySeq forced) ↔ seq = value) ∧
    ((∀ cell, value ≠ .lazySeq cell) →
      seq.isOwnSeq = true ∧ (seq = value ↔ value.isOwnSeq = true)) ∧
    (Value.lazySeq given).seq.run machine now = some (.ok value, now) ∧
    (value.isOwnSeq = false →
      (Value.lazySeq given).first.run machine now = some (.ok .nil, now) ∧
      (Cursor.pending (.lazySeq given)).next machine now =
        some ((value.inPlaceOfSeq, .done), now)) := by
  have hasSteps : 0 < machine.limit := by
    rcases Nat.eq_zero_or_pos machine.limit with noSteps | hasSteps
    · rw [Value.seq_run_without_steps noSteps] at asked
      cases asked
    · exact hasSteps
  rcases Opens.of_called pending called asked with ⟨cells, bodies, last, opens⟩
  refine ⟨⟨fun same => ?_, fun same => ?_⟩, fun notLazy => ?_,
    Value.seq_run_realized hasSteps isGiven, fun notOwn =>
      ⟨Value.first_run_given hasSteps notOwn isGiven, Value.next_run_given hasSteps notOwn isGiven⟩⟩
  · have ran := same.seq
    rw [Value.seq_run_realized hasSteps isGiven, Value.seq_run_realized hasSteps isForced] at ran
    cases ran
    rfl
  · exact Value.indistinguishable_of_same keeps isGiven (same ▸ isForced)
  · have isOwn : seq.isOwnSeq = true := by
      rcases opens.handsOut_or_isMadeAnew with handsOut | isMadeAnew
      · rcases (HandsOut.iff_of_not_lazy notLazy).mp handsOut with ⟨isOwn, rfl⟩
        exact isOwn
      · exact isMadeAnew.1
    exact ⟨isOwn, fun same => same ▸ isOwn,
      fun valueIsOwn => (HandsOut.own valueIsOwn).eq_seq opens⟩

end

/-- Whatever is called answers with this value. -/
private def answering (value : Value) : Machine :=
  ⟨fun _ _ _ world => some (.ok value, world), [], 2⟩

/-- There is a lazy seq that is pending, and one that is made from a value. -/
private def holdingBoth (value : Value) : World :=
  { World.initial with deferred := (Store.empty.push (.pending .nil)).push (.realized value) }

private theorem answering_keepsRealized (value : Value) : (answering value).KeepsRealized := by
  intro function arguments world outcome after called
  cases called
  exact .refl world

/-- It makes no difference for a list, but it does for a vector: a lazy seq that is made from the
vector has nil for its first element. -/
theorem given_vector_is_no_seq :
    let items : Value := .list 1 [.integer 1] none
    let vector : Value := .vector 1 [.integer 1] none
    (∃ seq now, (Value.lazySeq ⟨0⟩).seq.run (answering items) (holdingBoth items) =
        some (.ok seq, now) ∧
      Value.Indistinguishable (answering items) now (.lazySeq ⟨1⟩) (.lazySeq ⟨0⟩)) ∧
    ∃ seq now, (Value.lazySeq ⟨0⟩).seq.run (answering vector) (holdingBoth vector) =
        some (.ok seq, now) ∧
      ¬Value.Indistinguishable (answering vector) now (.lazySeq ⟨1⟩) (.lazySeq ⟨0⟩) ∧
      (Value.lazySeq ⟨0⟩).first.run (answering vector) now = some (.ok (.integer 1), now) ∧
      (Value.lazySeq ⟨1⟩).first.run (answering vector) now = some (.ok .nil, now) := by
  intro items vector
  have keeps := answering_keepsRealized
  have pending (value : Value) :
      (holdingBoth value).deferred.get? 0 = some (.pending .nil) := rfl
  refine ⟨⟨_, _, rfl, ?_⟩, _, _, rfl, ?_⟩
  · exact (given_indistinguishable_iff ⟨1⟩ ⟨0⟩ (keeps items) (pending items) rfl rfl
      rfl rfl).1.mpr rfl
  · refine ⟨fun same => ?_, rfl, ?_⟩
    · exact Value.noConfusion ((given_indistinguishable_iff ⟨1⟩ ⟨0⟩ (keeps vector)
        (pending vector) rfl rfl (by rfl) (by rfl)).1.mp same)
    · exact ((given_indistinguishable_iff ⟨1⟩ ⟨0⟩ (keeps vector) (pending vector) rfl rfl
        (by rfl) (by rfl)).2.2.2 rfl).1

end LispRuntime
