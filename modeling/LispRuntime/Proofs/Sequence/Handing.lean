import LispRuntime.Proofs.Metadata.Carried
import LispRuntime.Proofs.Sequence.Chart
import LispRuntime.Proofs.Sequence.Opening

/-! Where a seq comes from. Nil, a list that is not empty and a cons cell are their own seqs, and
are handed out as they are. A lazy seq hands out the seq that it was realized to, or what the
answer of its body hands out. All others get a seq that is made for them. -/

namespace LispRuntime

namespace Value

/-- What is its own seq. -/
def isOwnSeq (value : Value) : Bool := value.isNil || value.isFull

/-- Nil, or a new list. -/
def IsMadeAnew (value : Value) : Prop :=
  value.isOwnSeq = true ∧ (value = nil ∨ ∃ address items, value = list address items none)

end Value

/-- Whose seq is asked for hands out a value that was there before. -/
inductive HandsOut (machine : Machine) : Value → World → Value → Prop
  | own {value : Value} {world : World} (isOwn : value.isOwnSeq = true) :
      HandsOut machine value world value
  | recalls {cell : Ref .deferred} {world : World} {seq : Value}
      (realized : world.deferred.get? cell.index = some (.realized seq)) :
      HandsOut machine (.lazySeq cell) world seq
  | answers {cell : Ref .deferred} {world between : World} {body answer kept : Value}
      (pending : world.deferred.get? cell.index = some (.pending body))
      (called : Application.Made machine
        ⟨body, [], world.settingDeferred cell.index (.running body), .ok answer, between⟩)
      (handsOut : HandsOut machine answer between kept) :
      HandsOut machine (.lazySeq cell) world kept

variable {machine : Machine} {world after : World} {value seq kept : Value}

/-! ## What is at hand -/

namespace Value

theorem seqWithin_of_isOwnSeq (isOwn : value.isOwnSeq = true) (fuel : Nat) :
    value.seqWithin (fuel + 1) = pure value := by
  cases value with
  | list address items metadata =>
      cases items with
      | nil => cases isOwn
      | cons => rfl
  | nil | cons => rfl
  | _ => cases isOwn

/-- Elements that are kept elsewhere are put into a list. -/
theorem listSeq_isMadeAnew {items : List Value}
    (ran : listSeq items machine world = some (seq, after)) : seq.IsMadeAnew := by
  cases items with
  | nil =>
      cases ran
      exact ⟨rfl, .inl rfl⟩
  | cons =>
      cases ran
      exact ⟨rfl, .inr ⟨_, _, rfl⟩⟩

theorem entrySeq_isMadeAnew {entries : List (Value × Value)}
    (ran : entrySeq entries machine world = some (seq, after)) : seq.IsMadeAnew := by
  rcases Run.exists_of_bind ran with ⟨vectors, between, -, made⟩
  exact listSeq_isMadeAnew made

/-- What is not its own seq gets a new one. -/
theorem seqWithin_makes (notLazy : ∀ cell, value ≠ lazySeq cell) (notOwn : value.isOwnSeq = false) :
    (value.seqWithin 1).Makes IsMadeAnew := by
  have isNew : IsMadeAnew nil := ⟨rfl, .inl rfl⟩
  cases value with
  | nil | cons => cases notOwn
  | list address items metadata =>
      cases items with
      | nil => exact .pure isNew
      | cons => cases notOwn
  | lazySeq cell => exact absurd rfl (notLazy cell)
  | vector | string | hashSet | sortedSet => exact .lift fun _ _ _ _ => listSeq_isMadeAnew
  | arrayMap | hashMap | sortedMap => exact .lift fun _ _ _ _ => entrySeq_isMadeAnew
  | _ => exact .throw _

end Value

/-! ## Every seq has its origin -/

theorem HandsOut.iff_of_not_lazy (notLazy : ∀ cell, value ≠ .lazySeq cell) :
    HandsOut machine value world kept ↔ value.isOwnSeq = true ∧ kept = value := by
  constructor
  · intro handsOut
    cases handsOut with
    | own isOwn => exact ⟨isOwn, rfl⟩
    | recalls | answers => exact absurd rfl (notLazy _)
  · rintro ⟨isOwn, rfl⟩
    exact .own isOwn

section

variable {forced : List (Ref .deferred)} {bodies : List Application}

/-- What is handed out is the seq. -/
theorem HandsOut.eq_seq (handsOut : HandsOut machine value world kept)
    (opens : Opens machine value world forced bodies (.ok seq) after) : seq = kept := by
  induction handsOut generalizing forced bodies after with
  | own isOwn =>
      cases opens with
      | atHand notLazy ran =>
          rw [Value.seqWithin_of_isOwnSeq isOwn] at ran
          cases ran
          rfl
      | recalls | answers => cases isOwn
  | recalls realized =>
      cases opens with
      | atHand notLazy => exact absurd rfl (notLazy _)
      | recalls again =>
          cases realized.symm.trans again
          rfl
      | answers pending => cases realized.symm.trans pending
  | answers pending called handsOut induction =>
      cases opens with
      | atHand notLazy => exact absurd rfl (notLazy _)
      | recalls realized => cases pending.symm.trans realized
      | answers again calledAgain opens =>
          cases pending.symm.trans again
          cases called.symm.trans calledAgain
          exact induction opens

/-- A seq was there before, or it is made anew. -/
theorem Opens.handsOut_or_isMadeAnew
    (opens : Opens machine value world forced bodies (.ok seq) after) :
    HandsOut machine value world seq ∨ seq.IsMadeAnew := by
  generalize asked : Except.ok seq = outcome at opens
  induction opens with
  | @atHand value world after outcome notLazy ran =>
      cases asked
      cases isOwn : value.isOwnSeq with
      | true =>
          rw [Value.seqWithin_of_isOwnSeq isOwn] at ran
          cases ran
          exact .inl (.own isOwn)
      | false => exact .inr (Value.seqWithin_makes notLazy isOwn _ _ _ _ ran)
  | recalls realized =>
      cases asked
      exact .inl (.recalls realized)
  | fails => cases asked
  | answers pending called opens induction =>
      exact (induction asked).imp_left (.answers pending called)

end

namespace Value

theorem exists_opens_of_seq {outcome : Except Error Value}
    (ran : value.seq.run machine world = some (outcome, after)) :
    ∃ forced bodies, Opens machine value world forced bodies outcome after := by
  rcases Attempt.exists_of_first ran with ⟨limit, _, read, asked⟩
  cases read
  exact exists_opens asked

theorem seq_eq_of_handsOut (ran : value.seq.run machine world = some (.ok seq, after))
    (handsOut : HandsOut machine value world kept) : seq = kept := by
  rcases exists_opens_of_seq ran with ⟨forced, bodies, opens⟩
  exact handsOut.eq_seq opens

theorem handsOut_or_isMadeAnew (ran : value.seq.run machine world = some (.ok seq, after)) :
    HandsOut machine value world seq ∨ seq.IsMadeAnew := by
  rcases exists_opens_of_seq ran with ⟨forced, bodies, opens⟩
  exact opens.handsOut_or_isMadeAnew

end Value

end LispRuntime
