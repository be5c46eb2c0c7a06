import LispRuntime.Proofs.World.Making

/-! What is realized when a walk takes one step. If a lazy seq is next, it is forced, and so is
the lazy seq that its body answers with, if it does that, and so on down to something that is at
hand. What comes behind the first element is not asked for anything. -/

namespace LispRuntime

/-- A call that is made, from the world before it to the world after. -/
structure Application where
  function : Value
  arguments : List Value
  before : World
  outcome : Except Error Value
  after : World

namespace Application

def Made (machine : Machine) (application : Application) : Prop :=
  machine.call machine.held application.function application.arguments application.before =
    some (application.outcome, application.after)

/-- The call leaves a cell as it is. -/
def Spares (cell : Ref .deferred) (application : Application) : Prop :=
  application.after.deferred.get? cell.index = application.before.deferred.get? cell.index

end Application

/-- What asking for the seq of a value comes to, with the lazy seqs that are forced for it, from
the outermost to the innermost one, and the calls of their bodies. -/
inductive Opens (machine : Machine) : Value → World → List (Ref .deferred) → List Application →
    Except Error Value → World → Prop
  | atHand {value : Value} {world after : World} {outcome : Except Error Value}
      (notLazy : ∀ cell, value ≠ .lazySeq cell)
      (ran : (value.seqWithin 1).run machine world = some (outcome, after)) :
      Opens machine value world [] [] outcome after
  | recalls {cell : Ref .deferred} {world : World} {seq : Value}
      (realized : world.deferred.get? cell.index = some (.realized seq)) :
      Opens machine (.lazySeq cell) world [cell] [] (.ok seq) world
  /-- The body fails. -/
  | fails {cell : Ref .deferred} {world between : World} {body : Value} {error : Error}
      (pending : world.deferred.get? cell.index = some (.pending body))
      (called : Application.Made machine
        ⟨body, [], world.settingDeferred cell.index (.running body), .error error, between⟩) :
      Opens machine (.lazySeq cell) world [cell]
        [⟨body, [], world.settingDeferred cell.index (.running body), .error error, between⟩]
        (.error error) (between.settingDeferred cell.index (.pending body))
  /-- The body answers, and its answer is asked for a seq. -/
  | answers {cell : Ref .deferred} {world between after : World} {body answer : Value}
      {forced : List (Ref .deferred)} {bodies : List Application} {outcome : Except Error Value}
      (pending : world.deferred.get? cell.index = some (.pending body))
      (called : Application.Made machine
        ⟨body, [], world.settingDeferred cell.index (.running body), .ok answer, between⟩)
      (opens : Opens machine answer between forced bodies outcome after) :
      Opens machine (.lazySeq cell) world (cell :: forced)
        (⟨body, [], world.settingDeferred cell.index (.running body), .ok answer, between⟩ ::
          bodies)
        outcome (after.settingDeferred cell.index (Deferred.settled body outcome))

/-- A step of a walk, with the lazy seqs that are forced for it and the calls of their bodies. -/
inductive Advances (machine : Machine) : Cursor → World → List (Ref .deferred) →
    List Application → Cursor.Yield × Cursor → World → Prop
  | atHand {cursor : Cursor} {world after : World} {step : Cursor.Yield × Cursor}
      (notLazy : ∀ cell, cursor ≠ .pending (.lazySeq cell))
      (ran : cursor.next machine world = some (step, after)) :
      Advances machine cursor world [] [] step after
  | opens {cell : Ref .deferred} {world after : World} {forced : List (Ref .deferred)}
      {bodies : List Application} {step : Cursor.Yield × Cursor} {outcome : Except Error Value}
      (ran : (Cursor.pending (.lazySeq cell)).next machine world = some (step, after))
      (opens : Opens machine (.lazySeq cell) world forced bodies outcome after) :
      Advances machine (.pending (.lazySeq cell)) world forced bodies step after

variable {machine : Machine} {world after : World}

/-! ## What is at hand -/

namespace Value

variable {value : Value} (notLazy : ∀ cell, value ≠ .lazySeq cell)
include notLazy

theorem seqWithin_of_not_lazy (fuel : Nat) : seqWithin (fuel + 1) value = seqWithin 1 value := by
  cases value
  case lazySeq cell => exact absurd rfl (notLazy cell)
  case list items _ => cases items <;> rfl
  all_goals rfl

theorem plain_seqWithin (fuel : Nat) : Plain (value.seqWithin (fuel + 1)).run := by
  unfold seqWithin
  split
  case h_1 | h_2 | h_3 | h_4 => exact .pure _
  case h_5 | h_6 => exact (Plain.listSeq _).lift
  case h_7 cell => exact absurd rfl (notLazy cell)
  case h_8 =>
    split
    · exact (Plain.entrySeq _).lift
    · exact (Plain.listSeq _).lift
    · exact .pure _

end Value

theorem Cursor.plain_next {cursor : Cursor} (notLazy : ∀ cell, cursor ≠ .pending (.lazySeq cell)) :
    Plain cursor.next := by
  unfold Cursor.next
  split
  case h_1 | h_2 | h_3 | h_4 => exact .pure _
  case h_5 value _ _ =>
    have notLazy : ∀ cell, value ≠ .lazySeq cell := by
      rintro cell rfl
      exact notLazy cell rfl
    have plainSeq : Plain value.seq.run := by
      refine Plain.limit.lift.andThen fun limit => ?_
      cases limit with
      | zero => exact .stuck
      | succ fuel => exact Value.plain_seqWithin notLazy fuel
    refine plainSeq.bind fun outcome => ?_
    split <;> exact .pure _

/-! ## Every step has its account -/

theorem exists_opens {value : Value} {fuel : Nat} {outcome : Except Error Value}
    (ran : (value.seqWithin fuel).run machine world = some (outcome, after)) :
    ∃ forced bodies, Opens machine value world forced bodies outcome after := by
  -- Each lazy seq that is forced takes one unit of the fuel.
  induction fuel generalizing value world outcome after with
  | zero => cases ran
  | succ fuel induction =>
      by_cases lazy : ∃ cell, value = .lazySeq cell
      · rcases lazy with ⟨cell, rfl⟩
        rcases exists_of_force ran with
          ⟨seq, realized, rfl, rfl⟩ | ⟨body, between, pending, completed, rfl⟩
        · exact ⟨_, _, .recalls realized⟩
        · rcases Attempt.exists_of_bind completed with
            ⟨error, called, rfl⟩ | ⟨answer, middle, called, opened⟩
          · exact ⟨_, _, .fails pending called⟩
          · rcases induction opened with ⟨forced, bodies, opens⟩
            exact ⟨_, _, .answers pending called opens⟩
      · have notLazy : ∀ cell, value ≠ .lazySeq cell := fun cell same => lazy ⟨cell, same⟩
        rw [Value.seqWithin_of_not_lazy notLazy] at ran
        exact ⟨[], [], .atHand notLazy ran⟩

theorem exists_advances {cursor : Cursor} {step : Cursor.Yield × Cursor}
    (ran : cursor.next machine world = some (step, after)) :
    ∃ forced bodies, Advances machine cursor world forced bodies step after := by
  by_cases lazy : ∃ cell, cursor = .pending (.lazySeq cell)
  · rcases lazy with ⟨cell, rfl⟩
    rcases Run.exists_of_bind ran with ⟨outcome, between, asked, rest⟩
    have same : after = between := by
      split at rest <;> cases rest <;> rfl
    rcases exists_opens asked with ⟨forced, bodies, opens⟩
    exact ⟨forced, bodies, .opens ran (same ▸ opens)⟩
  · exact ⟨[], [], .atHand (fun cell same => lazy ⟨cell, same⟩) ran⟩

theorem Advances.ran {cursor : Cursor} {step : Cursor.Yield × Cursor}
    {forced : List (Ref .deferred)} {bodies : List Application}
    (reads : Advances machine cursor world forced bodies step after) :
    cursor.next machine world = some (step, after) := by
  cases reads with
  | atHand _ ran | opens ran _ => exact ran

/-! ## What is not forced -/

section

variable {forced : List (Ref .deferred)} {bodies : List Application} {cell : Ref .deferred}

theorem World.Keeps.deferred_eq (keeps : world.Keeps after) : after.deferred = world.deferred := by
  rw [keeps]

theorem get?_settingDeferred_of_ne {other : Ref .deferred} (state : Deferred)
    (different : cell ≠ other) :
    (world.settingDeferred other.index state).deferred.get? cell.index =
      world.deferred.get? cell.index :=
  Store.get?_set_of_ne _ _ (different ∘ Ref.index_inj.mp)

/-- A lazy seq that is not forced stays as it is, unless a body does something to it. -/
theorem Opens.keeps {value : Value} {outcome : Except Error Value}
    (opens : Opens machine value world forced bodies outcome after) (notForced : cell ∉ forced)
    (spared : ∀ application ∈ bodies, application.Spares cell) :
    after.deferred.get? cell.index = world.deferred.get? cell.index := by
  induction opens with
  | atHand notLazy ran => rw [((Value.plain_seqWithin notLazy 0).keeps ran).deferred_eq]
  | recalls => rfl
  | @fails other world between body error pending called =>
      have different : cell ≠ other := List.ne_of_not_mem_cons notForced
      calc (between.settingDeferred other.index (.pending body)).deferred.get? cell.index
          = between.deferred.get? cell.index := get?_settingDeferred_of_ne _ different
        _ = (world.settingDeferred other.index (.running body)).deferred.get? cell.index :=
            spared _ (List.mem_cons_self ..)
        _ = world.deferred.get? cell.index := get?_settingDeferred_of_ne _ different
  | @answers other world between after body answer forced bodies outcome pending called opens
      induction =>
      have different : cell ≠ other := List.ne_of_not_mem_cons notForced
      have kept := induction (List.not_mem_of_not_mem_cons notForced)
        fun application member => spared application (List.mem_cons_of_mem _ member)
      calc (after.settingDeferred other.index (Deferred.settled body outcome)).deferred.get?
            cell.index
          = after.deferred.get? cell.index := get?_settingDeferred_of_ne _ different
        _ = between.deferred.get? cell.index := kept
        _ = (world.settingDeferred other.index (.running body)).deferred.get? cell.index :=
            spared _ (List.mem_cons_self ..)
        _ = world.deferred.get? cell.index := get?_settingDeferred_of_ne _ different

theorem Advances.keeps {cursor : Cursor} {step : Cursor.Yield × Cursor}
    (reads : Advances machine cursor world forced bodies step after) (notForced : cell ∉ forced)
    (spared : ∀ application ∈ bodies, application.Spares cell) :
    after.deferred.get? cell.index = world.deferred.get? cell.index := by
  cases reads with
  | atHand notLazy ran => rw [((Cursor.plain_next notLazy).keeps ran).deferred_eq]
  | opens _ opens => exact opens.keeps notForced spared

end

end LispRuntime
