import LispRuntime.Proofs.Deferred.Account

/-! An access that comes upon a body that fails, or upon one that does not answer with a seq,
answers with that error. (Equality, the order, hashes and printed texts have no place for errors.
They take the seq for one that ends there.) -/

namespace LispRuntime.Deferred

variable {machine : Machine} {calls : Calls}

namespace Recorded

variable (recorded : Recorded machine calls)

include recorded

theorem telling_call (function : Value) (arguments : List Value) :
    Telling machine calls errorOf (Attempt.call function arguments).run := by
  intro world outcome after ran
  rcases recorded _ _ _ _ _ ran with ⟨inner, called⟩
  refine ⟨_, .call called, ?_⟩
  simp [Deed.error?]

theorem telling_force (cell : Ref .deferred) {complete : Value → Attempt Value}
    (completes : ∀ value, Made (complete value).run) :
    Telling machine calls errorOf (force cell complete).run := by
  intro world outcome after ran
  rcases recorded.forces (recorded.accounts (completes _)) ran with ⟨deed, accounts, same⟩
  refine ⟨_, accounts, ?_⟩
  simp [same]

theorem telling_seqWithin (fuel : Nat) (value : Value) :
    Telling machine calls errorOf (value.seqWithin fuel).run := by
  cases fuel with
  | zero => exact .plain .stuck
  | succ fuel =>
      unfold Value.seqWithin
      split
      case h_1 | h_2 | h_3 | h_4 => exact .pure _
      case h_5 | h_6 => exact .plain (Plain.listSeq _).lift
      case h_7 cell => exact recorded.telling_force cell (Made.seqWithin fuel)
      case h_8 =>
        split
        · exact .plain (Plain.entrySeq _).lift
        · exact .plain (Plain.listSeq _).lift
        · exact .pure _

theorem telling_seq (value : Value) : Telling machine calls errorOf value.seq.run :=
  .after .limit fun fuel => recorded.telling_seqWithin fuel value

theorem telling_first (value : Value) : Telling machine calls errorOf value.first.run := by
  apply (recorded.telling_seq value).andThen
  intro seq
  split <;> exact .pure _

theorem telling_rest (value : Value) : Telling machine calls errorOf value.rest.run := by
  apply (recorded.telling_seq value).andThen
  intro seq
  split
  · exact .plain (Plain.newList _ _).lift
  · exact .plain (Plain.newList _ _).lift
  · exact .pure _
  · exact .plain (Plain.newList _ _).lift

/-- A step yields the error, and the walk is over. -/
theorem telling_step (cursor : Cursor) :
    Telling machine calls Access.yieldedError cursor.next := by
  unfold Cursor.next
  split
  case h_1 | h_2 | h_3 | h_4 => exact .pure _
  case h_5 value _ _ =>
    apply (recorded.telling_seq value).bind
    · rintro (error | seq) other told
      · exact ⟨_, rfl, told⟩
      · cases told
    · rintro (error | seq) told
      · cases told
      · split <;> exact .pure _

theorem telling_foldUntil {σ : Type} {visit : σ → Value → Attempt (σ ⊕ σ)}
    (visits : ∀ state value, Telling machine calls errorOf (visit state value).run) (fuel : Nat)
    (state : σ) (cursor : Cursor) :
    Telling machine calls errorOf (Cursor.foldUntil visit fuel state cursor).run := by
  induction fuel generalizing state cursor with
  | zero => exact .plain .stuck
  | succ fuel induction =>
      apply Telling.first (recorded.telling_step cursor)
      · rintro ⟨_ | error | value, rest⟩ other told <;> cases told
        rfl
      · rintro ⟨_ | error | value, rest⟩ told
        · exact .pure _
        · cases told
        · apply (visits state value).andThen
          rintro (state | answer)
          · exact induction state rest
          · exact .pure _

theorem telling_count (value : Value) : Telling machine calls errorOf value.count.run := by
  unfold Value.count
  split
  case h_5 | h_6 =>
    apply Telling.after .limit
    intro limit
    exact recorded.telling_foldUntil (fun _ _ => .pure _) limit 0 _
  case h_7 cell => exact .plain (.transientCount cell)
  case h_8 => split <;> exact .pure _
  all_goals exact .pure _

theorem telling_elementAhead (fuel ahead passed : Nat) (cursor : Cursor) :
    Telling machine calls errorOf (Value.elementAhead fuel ahead passed cursor).run := by
  induction fuel generalizing ahead passed cursor with
  | zero => exact .plain .stuck
  | succ fuel induction =>
      apply Telling.first (recorded.telling_step cursor)
      · rintro ⟨_ | error | item, rest⟩ other told <;> cases told
        rfl
      · rintro ⟨_ | error | item, rest⟩ told
        · exact .pure _
        · cases told
        · dsimp only
          split
          · exact .pure _
          · exact induction _ _ rest

theorem telling_nth (value : Value) (index : UInt64) :
    Telling machine calls errorOf (value.nth index).run := by
  unfold Value.nth
  dsimp only
  split
  case h_3 | h_4 =>
    apply Telling.after .limit
    intro limit
    apply (recorded.telling_elementAhead limit _ 0 _).andThen
    rintro (item | length) <;> exact .pure _
  case h_1 | h_2 => split <;> exact .pure _
  case h_5 => exact .pure _

theorem telling_reduceCursor (function start : Value) (cursor : Cursor) :
    Telling machine calls errorOf (Value.reduceCursor function start cursor).run := by
  apply Telling.after .limit
  intro limit
  refine recorded.telling_foldUntil (fun accumulated item => ?_) limit start cursor
  exact (recorded.telling_call function [accumulated, item]).andThen fun _ => .pure _

theorem telling_reduceOwn (collection function : Value) :
    Telling machine calls errorOf (collection.reduceOwn function).run := by
  apply Telling.first (recorded.telling_step (.pending collection))
  · rintro ⟨_ | error | item, rest⟩ other told <;> cases told
    rfl
  · rintro ⟨_ | error | item, rest⟩ told
    · exact recorded.telling_call function []
    · cases told
    · exact recorded.telling_reduceCursor function item rest

/-- Of every access there is an account, and it tells what has failed. -/
theorem accesses {made : Access} {world after : World} {answer : made.Answer}
    (ran : made.perform machine world = some (answer, after)) :
    ∃ inner, Accounts machine calls made.perform world inner answer after ∧
      made.Tells inner answer := by
  have telling : made.passesErrors = true →
      Telling machine calls made.told made.perform := by
    intro passes
    cases made with
    | force delay => exact recorded.telling_force delay fun _ => .pure _
    | seq value => exact recorded.telling_seq value
    | first value => exact recorded.telling_first value
    | rest value => exact recorded.telling_rest value
    | next value => exact (recorded.telling_rest value).andThen recorded.telling_seq
    | step cursor => exact recorded.telling_step cursor
    | count value => exact recorded.telling_count value
    | nth value index => exact recorded.telling_nth value index
    | reduce collection function start => exact recorded.telling_reduceCursor function start _
    | reduceOwn collection function => exact recorded.telling_reduceOwn collection function
    | equal | compare | hash | display | inspect => cases passes
  have isMade : made.passesErrors = false → Made made.perform := by
    intro passes
    cases made with
    | equal left right => exact Made.equal left right
    | compare left right => exact Made.compare left right
    | hash value => exact Made.hash value
    | display value => exact Made.display value
    | inspect value => exact Made.inspect value
    | _ => cases passes
  cases passes : made.passesErrors with
  | true =>
      rcases telling passes _ _ _ ran with ⟨inner, accounts, tells⟩
      exact ⟨inner, accounts, fun _ => tells⟩
  | false =>
      rcases recorded.accounts (isMade passes) ran with ⟨inner, accounts⟩
      exact ⟨inner, accounts, fun passed => by cases passes.symm.trans passed⟩

theorem conducts {conduct : Conduct} {world after : World} {outcome : Except Error Value}
    (ran : conduct.run.run machine world = some (outcome, after)) :
    ∃ deeds, Conducts machine calls conduct world deeds outcome after := by
  induction conduct generalizing world with
  | exit answer =>
      cases answer <;> cases ran <;> exact ⟨_, .exit⟩
  | access made goOn induction =>
      rcases Attempt.exists_of_first ran with ⟨answer, between, asked, later⟩
      rcases recorded.accesses asked with ⟨inner, accounts, tells⟩
      rcases induction answer later with ⟨deeds, conducts⟩
      exact ⟨_, .access accounts tells conducts⟩
  | call function arguments goOn induction =>
      rcases Attempt.exists_of_first ran with ⟨answer, between, called, later⟩
      rcases recorded _ _ _ _ _ called with ⟨inner, called⟩
      rcases induction answer later with ⟨deeds, conducts⟩
      exact ⟨_, .call called conducts⟩
  | defer body goOn induction =>
      rcases Attempt.exists_of_first ran with ⟨cell, between, made, later⟩
      cases made
      rcases induction _ later with ⟨deeds, conducts⟩
      exact ⟨_, .defer conducts⟩
  | realized seq goOn induction =>
      rcases Attempt.exists_of_first ran with ⟨cell, between, made, later⟩
      cases made
      rcases induction _ later with ⟨deeds, conducts⟩
      exact ⟨_, .realized conducts⟩
  | elsewhere other goOn induction =>
      rcases Attempt.exists_of_first ran with ⟨_, between, changed, looked⟩
      cases changed
      rcases Attempt.exists_of_first looked with ⟨seen, _, found, later⟩
      cases found
      rcases induction _ later with ⟨deeds, conducts⟩
      exact ⟨_, .elsewhere conducts⟩

end Recorded

/-- Calls that go deeper go by the conduct of the functions that they call. -/
theorem Library.recorded (library : Library) (held : List Operand) (limit depth : Nat) :
    Recorded (library.machine held limit depth) (library.calls held limit depth) := by
  induction depth with
  | zero =>
      intro function arguments world outcome after called
      cases called
  | succ depth induction =>
      intro function arguments world outcome after called
      exact induction.conducts called

end LispRuntime.Deferred
