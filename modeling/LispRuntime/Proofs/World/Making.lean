import LispRuntime.Collection.Access
import LispRuntime.Proofs.World.Forcing

/-! How computations are made. Most of what is done with values reaches the rest of the world in
two ways only: a deferred cell is forced, or a function is called. Between that addresses are
given out and array maps change, and that is all. What is true of computations that are made in
this way is true of walks, hashes, the order, equality and printed texts. -/

namespace LispRuntime

/-- The machine, when nobody answers a call. -/
def Machine.silent (machine : Machine) : Machine :=
  { machine with call := fun _ _ _ _ => none }

namespace World

/-- Everything but addresses and array maps stays as it is. -/
def Keeps (before after : World) : Prop :=
  after = { before with addresses := after.addresses, maps := after.maps }

theorem Keeps.refl (world : World) : world.Keeps world := rfl

theorem Keeps.trans {first second third : World} (keeps : first.Keeps second)
    (keepsAgain : second.Keeps third) : first.Keeps third := by
  rw [Keeps, keepsAgain, keeps]

end World

/-- Nothing is called, and nothing changes but addresses and array maps. -/
structure Plain {α : Type} (computation : Run α) : Prop where
  silent : ∀ machine world, computation machine world = computation machine.silent world
  keeps : ∀ {machine world answer after}, computation machine world = some (answer, after) →
    world.Keeps after

namespace Plain

variable {α β : Type}

theorem pure (answer : α) : Plain (Pure.pure answer) where
  silent _ _ := rfl
  keeps ran := by
    cases ran
    exact .refl _

theorem stuck : Plain (Run.stuck : Run α) := ⟨fun _ _ => rfl, nofun⟩

theorem get : Plain (MonadState.get : Run World) where
  silent _ _ := rfl
  keeps ran := by
    cases ran
    exact .refl _

theorem limit : Plain Run.limit where
  silent _ _ := rfl
  keeps ran := by
    cases ran
    exact .refl _

/-- The array maps change, and what is answered may depend on them. -/
theorem writing (change : ArrayMap.Pool Value → α × ArrayMap.Pool Value) :
    Plain (do
      let world ← (MonadState.get : Run World)
      let (answer, maps) := change world.maps
      set { world with maps := maps }
      return answer) where
  silent _ _ := rfl
  keeps ran := by
    cases ran
    rfl

theorem freshAddress : Plain Run.freshAddress where
  silent _ _ := rfl
  keeps ran := by
    cases ran
    rfl

theorem bind {computation : Run α} {next : α → Run β} (isPlain : Plain computation)
    (goesOn : ∀ answer, Plain (next answer)) : Plain (computation >>= next) where
  silent machine world := by
    change (computation machine world).bind _ = (computation machine.silent world).bind _
    rw [isPlain.silent]
    congr 1
    funext reached
    exact (goesOn reached.1).silent machine reached.2
  keeps ran := by
    rcases Run.exists_of_bind ran with ⟨answer, between, first, rest⟩
    exact (isPlain.keeps first).trans ((goesOn answer).keeps rest)

theorem map {computation : Run α} (isPlain : Plain computation) (change : α → β) :
    Plain (do return change (← computation)) :=
  isPlain.bind fun _ => .pure _

theorem mapM {visit : α → Run β} (visits : ∀ element, Plain (visit element))
    (elements : List α) : Plain (elements.mapM visit) := by
  induction elements with
  | nil => exact .pure []
  | cons element rest induction =>
      rw [List.mapM_cons]
      exact (visits element).bind fun _ => induction.map _

theorem newList (items : List Value) (metadata : Option Value) :
    Plain (Value.newList items metadata) :=
  freshAddress.map _

theorem listSeq (items : List Value) : Plain (Value.listSeq items) := by
  unfold Value.listSeq
  split
  · exact .pure _
  · exact newList items none

theorem entrySeq (entries : List (Value × Value)) : Plain (Value.entrySeq entries) :=
  (mapM (fun _ => freshAddress.map _) entries).bind listSeq

theorem found (cell : Option α) : Plain (Run.found cell) := by
  cases cell with
  | none => exact .stuck
  | some cell => exact .pure cell

/-- A look at one cell of the world. -/
theorem look (look : World → Option α) : Plain (do Run.found (look (← MonadState.get))) :=
  get.bind fun world => found (look world)

theorem lift {computation : Run α} (isPlain : Plain computation) :
    Plain (ExceptT.lift computation : Attempt α).run :=
  isPlain.map _

theorem andThen {attempt : Attempt α} {next : α → Attempt β} (isPlain : Plain attempt.run)
    (goesOn : ∀ answer, Plain (next answer).run) : Plain (attempt >>= next).run := by
  refine isPlain.bind fun outcome => ?_
  cases outcome with
  | ok answer => exact goesOn answer
  | error error => exact .pure _

theorem transientCount (cell : Ref .transient) : Plain (Transient.count cell).run := by
  have looks : Plain (Run.transientAt cell) := .look _
  apply andThen
  · apply looks.lift.andThen
    rintro (_ | editable) <;> exact .pure _
  · rintro (handle | _ | _ | _ | _ | _)
    · exact ((get.map _).map _).lift
    all_goals exact .pure _

end Plain

/-- Made of plain computations, calls and the forcing of cells. -/
inductive Made : {α : Type} → Run α → Prop where
  | plain {α : Type} {computation : Run α} (isPlain : Plain computation) : Made computation
  | bind {α β : Type} {computation : Run α} {next : α → Run β} (made : Made computation)
      (goesOn : ∀ answer, Made (next answer)) : Made (computation >>= next)
  | call (function : Value) (arguments : List Value) :
      Made (Attempt.call function arguments).run
  | force (cell : Ref .deferred) {complete : Value → Attempt Value}
      (completes : ∀ value, Made (complete value).run) : Made (force cell complete).run

namespace Made

section

variable {α β σ : Type}

theorem pure (answer : α) : Made (Pure.pure answer) := .plain (.pure answer)

theorem map {computation : Run α} (made : Made computation) (change : α → β) :
    Made (do return change (← computation)) :=
  made.bind fun _ => .pure _

theorem stuck : Made (Run.stuck : Run α) := .plain .stuck

theorem get : Made (MonadState.get : Run World) := .plain .get

theorem limit : Made Run.limit := .plain .limit

theorem writing (change : ArrayMap.Pool Value → α × ArrayMap.Pool Value) :
    Made (do
      let world ← (MonadState.get : Run World)
      let (answer, maps) := change world.maps
      set { world with maps := maps }
      return answer) :=
  .plain (.writing change)

theorem freshAddress : Made Run.freshAddress := .plain .freshAddress

theorem look (look : World → Option α) : Made (do Run.found (look (← MonadState.get))) :=
  .plain (.look look)

theorem mapM {visit : α → Run β} (visits : ∀ element, Made (visit element))
    (elements : List α) : Made (elements.mapM visit) := by
  induction elements with
  | nil => exact .pure []
  | cons element rest induction =>
      rw [List.mapM_cons]
      exact (visits element).bind fun _ => induction.map _

theorem foldlM {step : σ → α → Run σ} (steps : ∀ state element, Made (step state element))
    (elements : List α) (state : σ) : Made (elements.foldlM step state) := by
  induction elements generalizing state with
  | nil => exact .pure state
  | cons element rest induction =>
      rw [List.foldlM_cons]
      exact (steps state element).bind induction

/-! ### Attempts -/

theorem throw (error : Error) : Made (MonadExcept.throw error : Attempt α).run := .pure _

theorem lift {computation : Run α} (made : Made computation) :
    Made (ExceptT.lift computation : Attempt α).run :=
  made.map _

theorem andThen {attempt : Attempt α} {next : α → Attempt β} (made : Made attempt.run)
    (goesOn : ∀ answer, Made (next answer).run) : Made (attempt >>= next).run := by
  refine made.bind fun outcome => ?_
  cases outcome with
  | ok answer => exact goesOn answer
  | error error => exact .pure _

/-- Something that cannot fail comes first. -/
theorem first {computation : Run α} {next : α → Attempt β} (made : Made computation)
    (goesOn : ∀ answer, Made (next answer).run) :
    Made (ExceptT.lift computation >>= next).run :=
  made.lift.andThen goesOn

theorem foldAttempts {step : σ → α → Attempt σ}
    (steps : ∀ state element, Made (step state element).run) (elements : List α) (state : σ) :
    Made (elements.foldlM step state).run := by
  induction elements generalizing state with
  | nil => exact .pure _
  | cons element rest induction =>
      rw [List.foldlM_cons]
      exact (steps state element).andThen induction

end

/-! ## Seqs -/

theorem seqWithin (fuel : Nat) (value : Value) : Made (value.seqWithin fuel).run := by
  induction fuel generalizing value with
  | zero => exact stuck
  | succ fuel induction =>
      unfold Value.seqWithin
      split
      case h_1 | h_2 | h_3 | h_4 => exact .pure _
      case h_5 | h_6 => exact (plain (.listSeq _)).lift
      case h_7 cell => exact .force cell induction
      case h_8 =>
        split
        · exact (plain (.entrySeq _)).lift
        · exact (plain (.listSeq _)).lift
        · exact throw _

theorem seq (value : Value) : Made value.seq.run :=
  limit.first fun fuel => seqWithin fuel value

/-! ## Walks -/

theorem step (cursor : Cursor) : Made cursor.next := by
  unfold Cursor.next
  split
  case h_1 | h_2 | h_3 | h_4 => exact .pure _
  case h_5 value _ _ =>
    apply (seq value).bind
    intro outcome
    split <;> exact .pure _

theorem nextElement (cursor : Cursor) : Made cursor.nextElement := by
  apply (step cursor).bind
  intro step
  split <;> exact .pure _

theorem foldElements {σ : Type} {visit : σ → Value → Run σ}
    (visits : ∀ state value, Made (visit state value)) (fuel : Nat) (state : σ)
    (cursor : Cursor) : Made (Cursor.foldElements visit fuel state cursor) := by
  induction fuel generalizing state cursor with
  | zero => exact stuck
  | succ fuel induction =>
      apply (nextElement cursor).bind
      rintro ⟨_ | value, rest⟩
      · exact .pure state
      · exact (visits state value).bind fun changed => induction changed rest

end Made

end LispRuntime
