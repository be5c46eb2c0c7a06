import LispRuntime.Proofs.Deferred.Conduct
import LispRuntime.Proofs.Value.Making

/-! Accounts of what has been done with cells, in the order in which it was done. An account
tells for which cells a body was run and what became of it, which had their values already, and
what functions that were called have done in their turn. Every run has an account. -/

namespace LispRuntime.Deferred

inductive Deed where
  /-- A cell is forced that has its value already. -/
  | recalls (cell : Ref .deferred) (value : Value)
  /-- A cell is forced that is pending: its body is run and what it answers is finished off. The
  outcome is the outcome of the forcing. -/
  | runs (cell : Ref .deferred) (body : Value) (inner : List Deed) (outcome : Except Error Value)
  | applies (function : Value) (arguments : List Value) (inner : List Deed)
      (outcome : Except Error Value)
  | accesses (made : Access) (inner : List Deed) (answer : made.Answer)

/-- What a call may do: the world before, the deeds, the outcome and the world after. -/
abbrev Calls := Value → List Value → World → List Deed → Except Error Value → World → Prop

/-- What a computation does that is made of calls and the forcing of cells. -/
inductive Accounts (machine : Machine) (calls : Calls) :
    {α : Type} → Run α → World → List Deed → α → World → Prop where
  | plain {α : Type} {computation : Run α} {world after : World} {answer : α}
      (isPlain : Plain computation) (ran : computation machine world = some (answer, after)) :
      Accounts machine calls computation world [] answer after
  | bind {α β : Type} {computation : Run α} {next : α → Run β} {world between after : World}
      {deeds more : List Deed} {answer : α} {last : β}
      (first : Accounts machine calls computation world deeds answer between)
      (later : Accounts machine calls (next answer) between more last after) :
      Accounts machine calls (computation >>= next) world (deeds ++ more) last after
  | call {function : Value} {arguments : List Value} {world after : World} {inner : List Deed}
      {outcome : Except Error Value}
      (called : calls function arguments world inner outcome after) :
      Accounts machine calls (Attempt.call function arguments).run world
        [.applies function arguments inner outcome] outcome after
  | recalls {cell : Ref .deferred} {complete : Value → Attempt Value} {world : World}
      {value : Value} (realized : world.deferred.get? cell.index = some (.realized value)) :
      Accounts machine calls (force cell complete).run world [.recalls cell value] (.ok value)
        world
  /-- The body fails. -/
  | fails {cell : Ref .deferred} {complete : Value → Attempt Value} {world between : World}
      {body : Value} {inner : List Deed} {error : Error}
      (pending : world.deferred.get? cell.index = some (.pending body))
      (called : calls body [] (world.settingDeferred cell.index (.running body)) inner
        (.error error) between) :
      Accounts machine calls (force cell complete).run world
        [.runs cell body [.applies body [] inner (.error error)] (.error error)] (.error error)
        (between.settingDeferred cell.index (.pending body))
  /-- The body answers, and what it has answered is finished off or not. -/
  | answers {cell : Ref .deferred} {complete : Value → Attempt Value}
      {world between after : World} {body answer : Value} {inner deeds : List Deed}
      {outcome : Except Error Value}
      (pending : world.deferred.get? cell.index = some (.pending body))
      (called : calls body [] (world.settingDeferred cell.index (.running body)) inner
        (.ok answer) between)
      (completes : Accounts machine calls (complete answer).run between deeds outcome after) :
      Accounts machine calls (force cell complete).run world
        [.runs cell body (.applies body [] inner (.ok answer) :: deeds) outcome] outcome
        (after.settingDeferred cell.index (settled body outcome))

/-! ## Errors that are passed on -/

def errorOf {α : Type} : Except Error α → Option Error
  | .error error => some error
  | .ok _ => none

/-- The error of a forcing or a call. -/
def Deed.error? : Deed → Option Error
  | .runs _ _ _ outcome | .applies _ _ _ outcome => errorOf outcome
  | .recalls .. | .accesses .. => none

namespace Access

/-- Does it answer with an error when it comes upon one? The others take a seq that cannot be
realized for one that ends there. -/
def passesErrors : Access → Bool
  | equal .. | compare .. | hash _ | display _ | inspect _ => false
  | _ => true

def yieldedError : Cursor.Yield × Cursor → Option Error
  | (some (.error error), _) => some error
  | _ => none

/-- The error that an answer tells of. -/
def told : (access : Access) → access.Answer → Option Error
  | step _, answer => yieldedError answer
  | count _, outcome => errorOf outcome
  | force _, outcome | seq _, outcome | first _, outcome | rest _, outcome | next _, outcome
  | nth .., outcome | reduce .., outcome | reduceOwn .., outcome => errorOf outcome
  | equal .., _ | compare .., _ | hash _, _ | display _, _ | inspect _, _ => none

/-- What has failed is what the answer tells. -/
def Tells (access : Access) (inner : List Deed) (answer : access.Answer) : Prop :=
  access.passesErrors = true →
    ∀ deed ∈ inner, ∀ error, deed.error? = some error → access.told answer = some error

end Access

/-! ## Conduct -/

inductive Conducts (machine : Machine) (calls : Calls) :
    Conduct → World → List Deed → Except Error Value → World → Prop where
  | exit {outcome : Except Error Value} {world : World} :
      Conducts machine calls (.exit outcome) world [] outcome world
  | access {made : Access} {goOn : made.Answer → Conduct} {world between after : World}
      {inner deeds : List Deed} {answer : made.Answer} {outcome : Except Error Value}
      (accounts : Accounts machine calls made.perform world inner answer between)
      (tells : made.Tells inner answer)
      (later : Conducts machine calls (goOn answer) between deeds outcome after) :
      Conducts machine calls (.access made goOn) world (.accesses made inner answer :: deeds)
        outcome after
  | call {function : Value} {arguments : List Value} {goOn : Except Error Value → Conduct}
      {world between after : World} {inner deeds : List Deed}
      {answer outcome : Except Error Value}
      (called : calls function arguments world inner answer between)
      (later : Conducts machine calls (goOn answer) between deeds outcome after) :
      Conducts machine calls (.call function arguments goOn) world
        (.applies function arguments inner answer :: deeds) outcome after
  | defer {body : Value} {goOn : Ref .deferred → Conduct} {world after : World}
      {deeds : List Deed} {outcome : Except Error Value}
      (later : Conducts machine calls (goOn ⟨world.deferred.next⟩)
        { world with deferred := world.deferred.push (.pending body) } deeds outcome after) :
      Conducts machine calls (.defer body goOn) world deeds outcome after
  | realized {seq : Value} {goOn : Value → Conduct} {world after : World}
      {deeds : List Deed} {outcome : Except Error Value}
      (later : Conducts machine calls (goOn (.lazySeq ⟨world.deferred.next⟩))
        { world with deferred := world.deferred.push (.realized seq) } deeds outcome after) :
      Conducts machine calls (.realized seq goOn) world deeds outcome after
  | elsewhere {other : Elsewhere} {goOn : World → Conduct} {world after : World}
      {deeds : List Deed} {outcome : Except Error Value}
      (later : Conducts machine calls (goOn (other.change world)) (other.change world) deeds
        outcome after) :
      Conducts machine calls (.elsewhere other goOn) world deeds outcome after

/-- The calls that a library answers at some depth, each with an account. -/
def Library.calls (library : Library) (held : List Operand) (limit : Nat) : Nat → Calls
  | 0 => fun _ _ _ _ _ _ => False
  | depth + 1 => fun function arguments world deeds outcome after =>
      Conducts (library.machine held limit depth) (library.calls held limit depth)
        (library function arguments) world deeds outcome after

/-! ## Every run has an account -/

/-- Whatever a machine answers to a call, there is an account of it. -/
def Recorded (machine : Machine) (calls : Calls) : Prop :=
  ∀ function arguments world outcome after,
    machine.call machine.held function arguments world = some (outcome, after) →
      ∃ deeds, calls function arguments world deeds outcome after

section

variable {machine : Machine} {calls : Calls} {α β : Type}

/-- Forcing a cell is one deed, and its outcome is the outcome of that. -/
theorem Recorded.forces (recorded : Recorded machine calls) {cell : Ref .deferred}
    {complete : Value → Attempt Value} {world after : World} {outcome : Except Error Value}
    (completes : ∀ {value between reached outcome},
      (complete value).run machine between = some (outcome, reached) →
        ∃ deeds, Accounts machine calls (complete value).run between deeds outcome reached)
    (ran : (force cell complete).run machine world = some (outcome, after)) :
    ∃ deed, Accounts machine calls (force cell complete).run world [deed] outcome after ∧
      deed.error? = errorOf outcome := by
  rcases exists_of_force ran with ⟨value, here, rfl, rfl⟩ | ⟨body, between, here, inside, rfl⟩
  · exact ⟨_, .recalls here, rfl⟩
  rcases Attempt.exists_of_bind inside with ⟨error, failed, rfl⟩ | ⟨value, _, first, rest⟩
  · rcases recorded _ _ _ _ _ failed with ⟨inner, called⟩
    exact ⟨_, .fails here called, rfl⟩
  · rcases recorded _ _ _ _ _ first with ⟨inner, called⟩
    rcases completes rest with ⟨deeds, accountsRest⟩
    exact ⟨_, .answers here called accountsRest, rfl⟩

theorem Recorded.accounts (recorded : Recorded machine calls) {computation : Run α}
    (made : Made computation) {world after : World} {answer : α}
    (ran : computation machine world = some (answer, after)) :
    ∃ deeds, Accounts machine calls computation world deeds answer after := by
  induction made generalizing world after with
  | plain isPlain => exact ⟨_, .plain isPlain ran⟩
  | bind made goesOn accounts accountsNext =>
      rcases Run.exists_of_bind ran with ⟨middle, between, first, rest⟩
      rcases accounts first with ⟨deeds, accountsFirst⟩
      rcases accountsNext middle rest with ⟨more, accountsRest⟩
      exact ⟨_, .bind accountsFirst accountsRest⟩
  | call function arguments =>
      rcases recorded _ _ _ _ _ ran with ⟨inner, called⟩
      exact ⟨_, .call called⟩
  | force cell completes accounts =>
      rcases recorded.forces (accounts _) ran with ⟨deed, accountsForce, _⟩
      exact ⟨_, accountsForce⟩

/-! ### Errors are told -/

/-- Of whatever the computation does there is an account, and its answer tells what has
failed. -/
def Telling (machine : Machine) (calls : Calls) (told : α → Option Error) (computation : Run α) :
    Prop :=
  ∀ world answer after, computation machine world = some (answer, after) →
    ∃ deeds, Accounts machine calls computation world deeds answer after ∧
      ∀ deed ∈ deeds, ∀ error, deed.error? = some error → told answer = some error

namespace Telling

theorem plain {told : α → Option Error} {computation : Run α} (isPlain : Plain computation) :
    Telling machine calls told computation :=
  fun _ _ _ ran => ⟨[], .plain isPlain ran, nofun⟩

theorem pure {told : α → Option Error} (answer : α) :
    Telling machine calls told (Pure.pure answer) :=
  plain (.pure answer)

/-- After an error nothing more is done, and it is told. -/
theorem bind {told : α → Option Error} {toldLast : β → Option Error} {computation : Run α}
    {next : α → Run β} (telling : Telling machine calls told computation)
    (stops : ∀ answer error, told answer = some error →
      ∃ last, next answer = Pure.pure last ∧ toldLast last = some error)
    (goesOn : ∀ answer, told answer = none → Telling machine calls toldLast (next answer)) :
    Telling machine calls toldLast (computation >>= next) := by
  intro world last after ran
  rcases Run.exists_of_bind ran with ⟨answer, between, first, rest⟩
  rcases telling _ _ _ first with ⟨deeds, accounts, tells⟩
  cases outcome : told answer with
  | none =>
      rcases goesOn answer outcome _ _ _ rest with ⟨more, accountsRest, tellsRest⟩
      refine ⟨_, .bind accounts accountsRest, ?_⟩
      intro deed member error failed
      rcases List.mem_append.mp member with early | late
      · cases outcome.symm.trans (tells deed early error failed)
      · exact tellsRest deed late error failed
  | some error =>
      rcases stops answer error outcome with ⟨last', same, isTold⟩
      have plainRest := Plain.pure last'
      rw [← same] at plainRest
      refine ⟨_, .bind accounts (.plain plainRest rest), ?_⟩
      rw [same] at rest
      cases rest
      intro deed member other failed
      rw [List.append_nil] at member
      rw [isTold, ← outcome, tells deed member other failed]

/-- An attempt of two parts. -/
theorem andThen {attempt : Attempt α} {next : α → Attempt β}
    (telling : Telling machine calls errorOf attempt.run)
    (goesOn : ∀ answer, Telling machine calls errorOf (next answer).run) :
    Telling machine calls errorOf (attempt >>= next).run := by
  refine telling.bind ?_ ?_
  · rintro (error | answer) other told
    · exact ⟨.error error, rfl, told⟩
    · cases told
  · rintro (error | answer) told
    · cases told
    · exact goesOn answer

/-- Something that cannot fail comes first, though it may have come upon an error. -/
theorem first {told : α → Option Error} {computation : Run α} {next : α → Attempt β}
    (telling : Telling machine calls told computation)
    (stops : ∀ answer error, told answer = some error → next answer = throw error)
    (goesOn : ∀ answer, told answer = none → Telling machine calls errorOf (next answer).run) :
    Telling machine calls errorOf (ExceptT.lift computation >>= next).run := by
  let toldLifted : Except Error α → Option Error := fun lifted => lifted.toOption.bind told
  have lifted : Telling machine calls toldLifted
      (computation >>= fun answer => Pure.pure (Except.ok answer)) :=
    telling.bind (fun answer error isTold => ⟨_, rfl, isTold⟩) fun _ _ => pure _
  refine bind lifted ?_ ?_
  · rintro (error | answer) other isTold
    · cases isTold
    · exact ⟨.error other, congrArg ExceptT.run (stops answer other isTold), rfl⟩
  · rintro (error | answer) isTold
    · exact pure _
    · exact goesOn answer isTold

/-- Something that forces nothing comes first. -/
theorem after {computation : Run α} {next : α → Attempt β} (isPlain : Plain computation)
    (goesOn : ∀ answer, Telling machine calls errorOf (next answer).run) :
    Telling machine calls errorOf (ExceptT.lift computation >>= next).run :=
  have tellsNothing : Telling machine calls (fun _ => none) computation := plain isPlain
  first tellsNothing nofun fun answer _ => goesOn answer

end Telling

end

end LispRuntime.Deferred
