import LispRuntime.Proofs.Metadata.Walking

/-! What can be asked about the elements of a value, one after the other. Alike values are asked
in step. What can be read has an answer, as long as a walk over it is not too long. -/

namespace LispRuntime

/-- Asks for one element, or for what is left beside it. -/
inductive Value.Inquiry where
  | seq
  | first
  | rest
  | next
  | peek
  | nth (index : UInt64)

def Value.Inquiry.ask (inquiry : Inquiry) (value : Value) : Attempt Value :=
  match inquiry with
  | seq => value.seq
  | first => value.first
  | rest => value.rest
  | next => value.next
  | peek => value.peek
  | nth index => value.nth index

namespace Value

theorem ask_inStep {machine : Machine} {cells : Store Deferred} {left right : Value}
    (keeps : machine.KeepsRealized) (alike : Alike cells left right) (inquiry : Inquiry) :
    InStep machine cells (inquiry.ask left).run (inquiry.ask right).run
      (SameOutcome (Alike cells)) := by
  cases inquiry with
  | seq => exact seq_inStep keeps alike
  | first => exact first_inStep keeps alike
  | rest => exact rest_inStep keeps alike
  | next => exact next_inStep keeps alike
  | peek => exact peek_inStep alike
  | nth index => exact nth_inStep keeps alike index

end Value

/-! ## Walks that are made -/

namespace Made

theorem foldUntil {σ : Type} {visit : σ → Value → Attempt (σ ⊕ σ)}
    (visits : ∀ state value, Made (visit state value).run) (fuel : Nat) (state : σ)
    (cursor : Cursor) : Made (Cursor.foldUntil visit fuel state cursor).run := by
  induction fuel generalizing state cursor with
  | zero => exact stuck
  | succ fuel induction =>
      apply (step cursor).first
      rintro ⟨_ | _ | value, rest⟩
      · exact .pure _
      · exact throw _
      · apply (visits state value).andThen
        rintro (changed | answer)
        · exact induction changed rest
        · exact .pure _

theorem elementAhead (fuel ahead passed : Nat) (cursor : Cursor) :
    Made (Value.elementAhead fuel ahead passed cursor).run := by
  induction fuel generalizing ahead passed cursor with
  | zero => exact stuck
  | succ fuel induction =>
      apply (step cursor).first
      rintro ⟨_ | _ | value, rest⟩
      · exact .pure _
      · exact throw _
      · dsimp only
        split
        · exact .pure _
        · exact induction _ _ rest

theorem restOf (value : Value) : Made value.rest.run := by
  apply (seq value).andThen
  intro seq
  split
  case h_3 => exact .pure _
  all_goals exact (plain (.newList _ _)).lift

theorem nthOf (value : Value) (index : UInt64) : Made (value.nth index).run := by
  unfold Value.nth
  dsimp only
  split
  case h_1 | h_2 => split <;> exact .pure _
  case h_5 => exact throw _
  all_goals
    apply limit.first
    intro fuel
    apply (elementAhead fuel _ 0 _).andThen
    rintro (item | length) <;> exact .pure _

theorem ask (inquiry : Value.Inquiry) (value : Value) : Made (inquiry.ask value).run := by
  cases inquiry with
  | seq => exact seq value
  | first =>
      apply (seq value).andThen
      intro seq
      split <;> exact .pure _
  | rest => exact restOf value
  | next => exact (restOf value).andThen seq
  | peek =>
      change Made value.peek.run
      unfold Value.peek
      split <;> exact .pure _
  | nth index => exact nthOf value index

theorem count (value : Value) : Made value.count.run := by
  have steps : Made value.countSteps.run :=
    limit.first fun fuel => foldUntil (fun _ _ => .pure _) fuel 0 _
  unfold Value.count
  split
  case h_5 | h_6 => exact steps
  case h_7 cell => exact .plain (.transientCount cell)
  case h_8 => split <;> exact .pure _
  all_goals exact .pure _

end Made

/-! ## Answers -/

section

variable {machine : Machine} {moment : Moment} {value : Value} {datum : Datum}

/-- What can be read can be walked over, if anything of its kind can. -/
theorem Reads.walks (read : moment.Reads value datum) (seqable : value.isSeqable = true) :
    ∃ items, moment.Walks value items := by
  cases read with
  | leaf known =>
      cases value <;> first | (cases seqable; done) | (cases known; done) | skip
      case nil => exact ⟨[], .nil⟩
      case string => exact ⟨_, .string⟩
  | sequence _ walk => exact ⟨_, walk⟩
  | map contents readKeys readValues => exact ⟨_, .map contents readKeys readValues⟩
  | set contents readItems => exact ⟨_, .set contents readItems⟩

theorem Reads.exists_length (read : moment.Reads value datum)
    (kind : value.isSequential = true) :
    ∃ items, moment.Walks value items ∧ items.length < datum.cost := by
  rcases read.exists_walk kind with ⟨items, rfl, walk⟩
  have short := Datum.length_le_costAll items
  exact ⟨items, walk, by rw [Datum.cost]; omega⟩

/-- A walk that does not fail has an answer, whatever is done with the elements. -/
theorem Cursor.foldUntil_answered {σ : Type} {visit : σ → Value → Attempt (σ ⊕ σ)}
    (visits : ∀ between, moment ≤ between → ∀ state value,
      Succeeds machine between (visit state value) fun _ _ => True)
    (enough : 0 < machine.limit) {fuel : Nat} {items : List Datum} (within : items.length < fuel)
    {cursor : Cursor} (yields : moment.Yields cursor items) (state : σ) :
    Succeeds machine moment (foldUntil visit fuel state cursor) fun _ _ => True := by
  induction items generalizing moment fuel cursor state with
  | nil =>
      rcases fuel with _ | fuel
      · cases within
      apply (Succeeds.lift (next_gives enough yields)).bind
      rintro _ between _ ⟨_, _, rfl, ⟨⟩⟩
      exact Succeeds.pure trivial
  | cons datum items induction =>
      rcases fuel with _ | fuel
      · cases within
      apply (Succeeds.lift (next_gives enough yields)).bind
      rintro _ between le ⟨_, _, rfl, _ | ⟨_, yieldsRest⟩⟩
      apply (visits between le state _).bind
      rintro (next | answer) later leLater _
      · exact induction (fun last leLast => visits last (le.trans (leLater.trans leLast)))
          (Nat.lt_of_succ_lt_succ within) (Moment.yields_later leLater yieldsRest) next
      · exact Succeeds.pure trivial

namespace Value

theorem limit_gives (machine : Machine) (moment : Moment) :
    Gives machine moment Run.limit fun limit _ => limit = machine.limit :=
  ⟨_, moment, rfl, le_refl moment, rfl⟩

theorem elementAhead_answered (enough : 0 < machine.limit) {fuel : Nat} {items : List Datum}
    (within : items.length < fuel) {cursor : Cursor} (yields : moment.Yields cursor items)
    (ahead passed : Nat) :
    Succeeds machine moment (elementAhead fuel ahead passed cursor) fun _ _ => True := by
  induction items generalizing moment fuel cursor ahead passed with
  | nil =>
      rcases fuel with _ | fuel
      · cases within
      apply (Succeeds.lift (Cursor.next_gives enough yields)).bind
      rintro _ between _ ⟨_, _, rfl, ⟨⟩⟩
      exact Succeeds.pure trivial
  | cons datum items induction =>
      rcases fuel with _ | fuel
      · cases within
      apply (Succeeds.lift (Cursor.next_gives enough yields)).bind
      rintro _ between le ⟨_, _, rfl, _ | ⟨_, yieldsRest⟩⟩
      cases ahead with
      | zero => exact Succeeds.pure trivial
      | succ ahead =>
          exact induction (Nat.lt_of_succ_lt_succ within) yieldsRest ahead (passed + 1)

/-- Asking for a seq has an answer, and one can go on from it. -/
theorem seq_answered (enough : 0 < machine.limit) (read : moment.Reads value datum) :
    Gives machine moment value.seq.run fun outcome after => ∀ seq, outcome = .ok seq →
      seq.isSeq = true ∧ ∃ items, after.Walks seq items := by
  cases seqable : value.isSeqable with
  | true =>
      rcases read.walks seqable with ⟨items, walk⟩
      apply Gives.weaken (seq_succeeds enough walk)
      rintro _ after _ ⟨_, rfl, isSeq, walkAfter⟩ seq ⟨⟩
      exact ⟨isSeq, _, walkAfter⟩
  | false =>
      rcases Nat.exists_eq_add_of_lt enough with ⟨fuel, limit⟩
      refine ⟨.error (.wrongType "seq" "seqable" value.typeName), moment,
        (Attempt.run_first rfl).trans ?_, le_refl _, nofun⟩
      rw [limit, seqWithin_of_not_seqable seqable]
      rfl

theorem newList_walks {elements : List Value} {items : List Datum}
    (read : moment.ReadsAll elements items) :
    Succeeds machine moment (ExceptT.lift (newList elements none)) fun rest after =>
      ∃ others, after.Walks rest others := by
  apply Succeeds.lift
  apply (newList_gives read none).weaken
  rintro _ after _ ⟨⟨address, rfl⟩, readList⟩
  exact readList.walks rfl

theorem first_answered (enough : 0 < machine.limit) (read : moment.Reads value datum) :
    Gives machine moment value.first.run fun _ _ => True := by
  apply Run.Ends.attempt (seq_answered enough read)
  · exact fun _ _ _ _ => trivial
  · intro seq between _ _
    split <;> exact ⟨_, between, rfl, le_refl between, trivial⟩

/-- What follows can be walked over. -/
theorem rest_answered (enough : 0 < machine.limit) (read : moment.Reads value datum) :
    Gives machine moment value.rest.run fun outcome after => ∀ rest, outcome = .ok rest →
      ∃ others, after.Walks rest others := by
  apply Run.Ends.attempt (seq_answered enough read)
  · exact fun error _ _ _ => nofun
  · intro seq between _ isSeq
    rcases isSeq seq rfl with ⟨form, items, walk⟩
    have listed : ∀ {elements : List Value} {data : List Datum},
        between.ReadsAll elements data →
        Gives machine between (ExceptT.lift (newList elements none) : Attempt Value).run
          fun outcome after => ∀ rest, outcome = .ok rest → ∃ others, after.Walks rest others := by
      intro elements data read
      apply Gives.weaken (newList_walks read)
      rintro _ after _ ⟨_, rfl, walks⟩ rest ⟨⟩
      exact walks
    cases seq <;> first | (cases form; done) | skip
    case nil => exact listed .nil
    case list => exact listed (walk.indexed rfl).tail
    case cons first rest =>
      rcases walk.of_cons with ⟨_, others, _, _, walkRest⟩
      cases rest
      case nil => exact listed .nil
      all_goals
        apply Run.Ends.pure
        rintro _ ⟨⟩
        exact ⟨others, walkRest⟩

theorem next_answered (enough : 0 < machine.limit) (read : moment.Reads value datum) :
    Gives machine moment value.next.run fun _ _ => True := by
  apply Run.Ends.attempt (rest_answered enough read)
  · exact fun _ _ _ _ => trivial
  · intro rest between _ walks
    rcases walks rest rfl with ⟨others, walk⟩
    exact Gives.weaken (seq_succeeds enough walk) fun _ _ _ _ => trivial

theorem peek_answered (machine : Machine) (moment : Moment) (value : Value) :
    Gives machine moment value.peek.run fun _ _ => True := by
  unfold peek
  split <;> exact Gives.pure trivial

theorem nth_answered (within : datum.cost ≤ machine.limit) (read : moment.Reads value datum)
    (index : UInt64) : Gives machine moment (value.nth index).run fun _ _ => True := by
  unfold nth
  dsimp only
  split
  case h_1 | h_2 => split <;> exact Gives.pure trivial
  case h_5 => exact Gives.pure trivial
  all_goals
    rcases read.exists_length rfl with ⟨items, walk, short⟩
    have yields : moment.Yields (.pending _) items := walk
    apply Run.Ends.first (limit_gives machine moment)
    rintro _ between le rfl
    apply Run.Ends.attempt (elementAhead_answered (datum.cost_pos.trans_le within)
      (short.trans_le within) (Moment.yields_later le yields) _ 0)
    · exact fun _ _ _ _ => trivial
    · rintro (item | length) after _ _ <;> exact ⟨_, after, rfl, le_refl after, trivial⟩

/-- Whatever is asked about what can be read is answered. -/
theorem ask_answered (within : datum.cost ≤ machine.limit) (read : moment.Reads value datum)
    (inquiry : Inquiry) : Gives machine moment (inquiry.ask value).run fun _ _ => True := by
  have enough := datum.cost_pos.trans_le within
  cases inquiry with
  | seq => exact (seq_answered enough read).weaken fun _ _ _ _ => trivial
  | first => exact first_answered enough read
  | rest => exact (rest_answered enough read).weaken fun _ _ _ _ => trivial
  | next => exact next_answered enough read
  | peek => exact peek_answered machine moment value
  | nth index => exact nth_answered within read index

theorem countSteps_answered (within : datum.cost ≤ machine.limit) (read : moment.Reads value datum)
    (kind : value.isSequential = true) :
    Gives machine moment value.countSteps.run fun _ _ => True := by
  rcases read.exists_length kind with ⟨items, walk, short⟩
  have yields : moment.Yields (.pending value) items := walk
  apply Run.Ends.first (limit_gives machine moment)
  rintro _ between le rfl
  apply Gives.weaken (Cursor.foldUntil_answered (fun _ _ _ _ => Succeeds.pure trivial)
    (datum.cost_pos.trans_le within) (short.trans_le within) (Moment.yields_later le yields) 0)
  exact fun _ _ _ _ => trivial

/-- A collection that can be read is counted. What is being built in place may be anything. -/
theorem count_answered (within : datum.cost ≤ machine.limit) (read : moment.Reads value datum)
    (settled : ∀ cell, value ≠ .transient cell) :
    Gives machine moment value.count.run fun _ _ => True := by
  unfold count
  split
  case h_5 | h_6 => exact countSteps_answered within read rfl
  case h_7 => exact absurd rfl (settled _)
  case h_8 => split <;> exact Gives.pure trivial
  all_goals exact Gives.pure trivial

end Value

end

end LispRuntime
