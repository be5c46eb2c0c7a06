import LispRuntime.Proofs.Sequence.Folding
import LispRuntime.Proofs.Sequence.Views

/-! What a reduction comes to depends on the elements only, and not on what they are kept in.
Where they are at hand this holds of every function. Where they are realized on the way it holds
if the lazy seqs are accounted for, whatever the function has done: the reduction is then a fold
over the course. -/

namespace LispRuntime

/-! ## Elements at hand -/

/-- A walk meets these elements, and nothing has to be realized for them. -/
inductive Cursor.Offers : Cursor → List Value → Prop
  | done : Offers .done []
  | items (items : List Value) : Offers (.items items) items
  | nil : Offers (.pending .nil) []
  | list {address : Nat} {items : List Value} {metadata : Option Value} :
      Offers (.pending (.list address items metadata)) items
  | vector {address : Nat} {items : List Value} {metadata : Option Value} :
      Offers (.pending (.vector address items metadata)) items
  | cons {address : Nat} {first rest : Value} {items : List Value}
      (behind : Offers (.pending rest) items) :
      Offers (.pending (.cons address first rest)) (first :: items)

section

variable {machine : Machine} {world : World} {function : Value}

/-- What goes on in the same way from wherever it is gets on in the same way. -/
theorem Attempt.run_bind_congr {α β : Type} (attempt : Attempt α) {next other : α → Attempt β}
    (same : ∀ answer between,
      (next answer).run machine between = (other answer).run machine between) :
    (attempt >>= next).run machine world = (attempt >>= other).run machine world := by
  rcases ran : attempt.run machine world with _ | ⟨error | answer, between⟩
  · exact (Run.run_bind_none ran).trans (Run.run_bind_none ran).symm
  · exact (Attempt.run_bind_error ran).trans (Attempt.run_bind_error ran).symm
  · exact ((Attempt.run_bind_ok ran).trans (same answer between)).trans
      (Attempt.run_bind_ok ran).symm

namespace Cursor.Offers

variable {cursor other : Cursor} {items : List Value}

theorem next_run (offers : Offers cursor items) (positive : 0 < machine.limit) (world : World) :
    ∃ rest, cursor.next machine world = some ((items.head?.map .ok, rest), world) ∧
      Offers rest items.tail := by
  have enough : machine.limit = machine.limit.pred + 1 := (Nat.succ_pred_eq_of_pos positive).symm
  have asked : ∀ value : Value, value.seq.run machine world =
      (value.seqWithin (machine.limit.pred + 1)).run machine world := fun value => by
    rw [← enough]
    rfl
  cases offers with
  | done => exact ⟨_, rfl, .done⟩
  | items | list | vector =>
      cases items with
      | nil => exact ⟨_, rfl, .done⟩
      | cons first rest => exact ⟨_, rfl, .items rest⟩
  | nil => exact ⟨_, Run.run_bind (asked .nil), .done⟩
  | @cons address first rest _ behind =>
      exact ⟨_, Run.run_bind (asked (.cons address first rest)), behind⟩

theorem foldUntil_run_eq {σ : Type} (visit : σ → Value → Attempt (σ ⊕ σ))
    (positive : 0 < machine.limit) (offers : Offers cursor items) (offersToo : Offers other items)
    (fuel : Nat) (state : σ) (world : World) :
    (foldUntil visit fuel state cursor).run machine world =
      (foldUntil visit fuel state other).run machine world := by
  induction fuel generalizing state cursor other items world with
  | zero => rfl
  | succ fuel induction =>
      rcases offers.next_run positive world with ⟨rest, ran, behind⟩
      rcases offersToo.next_run positive world with ⟨restToo, ranToo, behindToo⟩
      rw [foldUntil, foldUntil, Attempt.run_first ran, Attempt.run_first ranToo]
      cases items with
      | nil => rfl
      | cons item items =>
          refine Attempt.run_bind_congr (visit state item) fun answer between => ?_
          cases answer with
          | inl state => exact induction behind behindToo state between
          | inr => rfl

end Cursor.Offers

namespace Value

variable {value other : Value} {items : List Value}

theorem reduce_run_eq (positive : 0 < machine.limit) (offers : Cursor.Offers (.pending value) items)
    (offersToo : Cursor.Offers (.pending other) items) (function start : Value) (world : World) :
    (value.reduce function start).run machine world =
      (other.reduce function start).run machine world :=
  offers.foldUntil_run_eq _ positive offersToo machine.limit start world

theorem reduceOwn_run_eq (positive : 0 < machine.limit)
    (offers : Cursor.Offers (.pending value) items)
    (offersToo : Cursor.Offers (.pending other) items) (function : Value) (world : World) :
    (value.reduceOwn function).run machine world =
      (other.reduceOwn function).run machine world := by
  rcases offers.next_run positive world with ⟨rest, ran, behind⟩
  rcases offersToo.next_run positive world with ⟨restToo, ranToo, behindToo⟩
  rw [reduceOwn, reduceOwn, Attempt.run_first ran, Attempt.run_first ranToo]
  cases items with
  | nil => rfl
  | cons item items => exact behind.foldUntil_run_eq _ positive behindToo machine.limit item world

end Value

end

/-! ## Elements that are realized on the way -/

/-- What a function does by a state of its own. It may fail, and it may never end. -/
abbrev Effect (σ : Type) := ExceptT Error (StateT σ Option)

theorem Effect.run_bind {σ : Type} {effect : Effect σ Value} {onward : Value → Effect σ Value}
    {state : σ} : (effect >>= onward).run state =
      match effect.run state with
      | none => none
      | some (.error error, later) => some (.error error, later)
      | some (.ok value, later) => (onward value).run later := by
  change (effect.run state).bind _ = _
  rcases effect.run state with _ | ⟨_ | _, _⟩ <;> rfl

/-- The left fold over a course, which stops at a reduced value. -/
def Course.fold {σ : Type} (answer : List Value → Effect σ Value) :
    Nat → Course → Value → Effect σ Value
  | 0, _, _ => fun _ => none
  | fuel + 1, course, accumulated =>
      match course 0 with
      | none => return accumulated
      | some (.error error) => throw error
      | some (.ok item) => do
          let value ← answer [accumulated, item]
          if value.isReduced then return value.unreduced
          else course.tail.fold answer fuel value

/-- The fold that starts with the first element. -/
def Course.foldOwn {σ : Type} (answer : List Value → Effect σ Value) (fuel : Nat)
    (course : Course) : Effect σ Value :=
  match course 0 with
  | none => answer []
  | some (.error error) => throw error
  | some (.ok item) => course.tail.fold answer fuel item

/-- Of values that count as the same, all are reduced or none is, and what is inside counts as the
same again. -/
def Likeness.SeesReduced (likeness : Likeness) : Prop :=
  ∀ left right, likeness.Alike left right →
    left.isReduced = right.isReduced ∧ likeness.Alike left.unreduced right.unreduced

section

variable {machine : Machine} {σ : Type} {likeness : Likeness} {account : σ → Account machine}
  {state : σ}

/-- The attempt never ends, or it ends with an outcome that counts as the one expected, and lazy
seqs are accounted for by the state that is expected. -/
def Reaches (likeness : Likeness) (account : σ → Account machine) {state : σ}
    (stage : Stage (account state)) (attempt : Attempt Value) :
    Option (Except Error Value × σ) → Prop
  | none => attempt.run machine stage.world = none
  | some (expected, later) => ∃ outcome, ∃ after : Stage (account later),
      attempt.run machine stage.world = some (outcome, after.world) ∧
      stage.chart.Extends after.chart ∧ after.Idle ∧ likeness.Agree (some outcome) (some expected)

/-- The attempt does what the effect does in this state. -/
def Performs (likeness : Likeness) (account : σ → Account machine) {state : σ}
    (stage : Stage (account state)) (attempt : Attempt Value) (effect : Effect σ Value) : Prop :=
  Reaches likeness account stage attempt (effect.run state)

/-- A function that does by a state of its own what it does, while lazy seqs are accounted for in
every state. It may ask for lazy seqs, and it may change anything else. -/
structure Performer (machine : Machine) (likeness : Likeness) (function : Value) where
  State : Type
  account : State → Account machine
  alike : ∀ state, (account state).toLikeness = likeness
  answer : List Value → Effect State Value
  calls : ∀ {state : State} (stage : Stage (account state)) {arguments expected : List Value},
    stage.Idle → List.Forall₂ likeness.Alike arguments expected →
      Performs likeness account stage (Attempt.call function arguments) (answer expected)

namespace Chart.Extends

variable {before between after : Chart}

theorem refl (chart : Chart) : chart.Extends chart := fun _ _ => id

theorem trans (grows : before.Extends between) (growsAgain : between.Extends after) :
    before.Extends after :=
  fun cell mark marked => growsAgain cell mark (grows cell mark marked)

end Chart.Extends

/-- What is done from a later stage on is done from the first one on. -/
theorem Reaches.of_later {stage : Stage (account state)} {later : σ} {after : Stage (account later)}
    {first attempt : Attempt Value} {reached : Option (Except Error Value × σ)}
    (grows : stage.chart.Extends after.chart)
    (ran : first.run machine stage.world = attempt.run machine after.world)
    (reaches : Reaches likeness account after attempt reached) :
    Reaches likeness account stage first reached := by
  rcases reached with _ | ⟨expected, final⟩
  · exact ran.trans reaches
  · rcases reaches with ⟨outcome, last, ranLater, growsAgain, idle, agree⟩
    exact ⟨outcome, last, ran.trans ranLater, grows.trans growsAgain, idle, agree⟩

namespace Performs

variable {stage : Stage (account state)} {attempt : Attempt Value} {effect : Effect σ Value}

theorem pure (idle : stage.Idle) {value expected : Value} (alike : likeness.Alike value expected) :
    Performs likeness account stage (Pure.pure value) (Pure.pure expected) :=
  ⟨_, stage, rfl, .refl _, idle, .element alike⟩

theorem throw (idle : stage.Idle) (error : Error) :
    Performs likeness account stage (MonadExcept.throw error) (MonadExcept.throw error) :=
  ⟨_, stage, rfl, .refl _, idle, .error⟩

theorem bind {next : Value → Attempt Value} {onward : Value → Effect σ Value}
    (performs : Performs likeness account stage attempt effect)
    (goesOn : ∀ {later : σ} (after : Stage (account later)) {value expected : Value},
      stage.chart.Extends after.chart → after.Idle → likeness.Alike value expected →
        Performs likeness account after (next value) (onward expected)) :
    Performs likeness account stage (attempt >>= next) (effect >>= onward) := by
  rw [Performs] at performs
  rw [Performs, Effect.run_bind]
  generalize effect.run state = reached at performs ⊢
  rcases reached with _ | ⟨error | expected, later⟩
  · exact Run.run_bind_none performs
  · rcases performs with ⟨outcome, after, ran, grows, idle, agree⟩
    cases agree
    exact ⟨_, after, Attempt.run_bind_error ran, grows, idle, .error⟩
  · rcases performs with ⟨outcome, after, ran, grows, idle, agree⟩
    cases agree with
    | element alike =>
        exact .of_later grows (Attempt.run_bind_ok ran) (goesOn after grows idle alike)

end Performs

/-- A step of a walk, in terms of a likeness that several accounts have. -/
theorem Cursor.next_run_charted {account : Account machine}
    (sameLikeness : account.toLikeness = likeness) {stage : Stage account} (idle : stage.Idle)
    {cursor : Cursor} {course : Course} (charted : cursor.ChartedIn stage.chart)
    (same : likeness.Same (cursor.courseIn stage.chart) course) :
    ∃ step, ∃ after : Stage account, cursor.next machine stage.world = some (step, after.world) ∧
      stage.chart.Extends after.chart ∧ after.Idle ∧
      Cursor.Steps likeness after.chart course step := by
  subst sameLikeness
  rcases Cursor.next_ends charted idle same with ⟨step, after, ran, le, steps⟩
  exact ⟨step, after, ran, le.chart, idle.later le, steps⟩

end

/-- What a fold does once an element has been read. -/
theorem Value.foldUntil_run_element {machine : Machine} {world between : World}
    {cursor rest : Cursor} {function start item : Value} {fuel : Nat}
    (ran : cursor.next machine world = some ((some (.ok item), rest), between)) :
    (Cursor.foldUntil (reduceStep function) (fuel + 1) start cursor).run machine world =
      (do
        let answer ← Attempt.call function [start, item]
        if answer.isReduced then return answer.unreduced
        else Cursor.foldUntil (reduceStep function) fuel answer rest : Attempt Value).run machine
          between := by
  refine (Attempt.run_first ran).trans ?_
  dsimp only
  rw [reduceStep, bind_assoc]
  refine Attempt.run_bind_congr _ fun answer later => ?_
  rw [pure_bind]
  cases answer.isReduced <;> rfl

namespace Performer

variable {machine : Machine} {likeness : Likeness} {function : Value}
  (performer : Performer machine likeness function) (sees : likeness.SeesReduced)
  {state : performer.State} {stage : Stage (performer.account state)} (idle : stage.Idle)
  {course : Course}
include sees idle

theorem foldUntil_performs {cursor : Cursor} (charted : cursor.ChartedIn stage.chart)
    (same : likeness.Same (cursor.courseIn stage.chart) course) {start accumulated : Value}
    (alike : likeness.Alike start accumulated) (fuel : Nat) :
    Performs likeness performer.account stage
      (Cursor.foldUntil (Value.reduceStep function) fuel start cursor)
      (course.fold performer.answer fuel accumulated) := by
  induction fuel generalizing state stage cursor course start accumulated with
  | zero => rfl
  | succ fuel induction =>
      rcases Cursor.next_run_charted (performer.alike state) idle charted same with
        ⟨step, after, ran, grows, idleAfter, steps⟩
      rw [Course.fold]
      cases steps with
      | ended here =>
          rw [here]
          exact Reaches.of_later grows (Attempt.run_first ran) (Performs.pure idleAfter alike)
      | error here =>
          rw [here]
          exact Reaches.of_later grows (Attempt.run_first ran) (Performs.throw idleAfter _)
      | @element found item rest here itemAlike restCharted restSame =>
          rw [here]
          refine Reaches.of_later grows (Value.foldUntil_run_element ran) ?_
          refine Performs.bind (performer.calls after idleAfter
            (.cons alike (.cons itemAlike .nil))) ?_
          intro later reached answer expected growsAgain idleReached answerAlike
          rcases sees _ _ answerAlike with ⟨sameFlag, insideAlike⟩
          rw [sameFlag]
          split
          · exact .pure idleReached insideAlike
          · -- The function may have added lazy seqs, and the rest means what it meant before.
            refine induction idleReached (Cursor.chartedIn_later growsAgain restCharted) ?_
              answerAlike
            rw [Cursor.courseIn_later growsAgain restCharted]
            exact restSame

theorem reduce_performs {collection : Value} (charted : collection.ChartedIn stage.chart)
    (same : likeness.Same (collection.courseIn stage.chart) course) {start expected : Value}
    (alike : likeness.Alike start expected) :
    Performs likeness performer.account stage (collection.reduce function start)
      (course.fold performer.answer machine.limit expected) := by
  have pending : (Cursor.pending collection).ChartedIn stage.chart := charted
  exact Reaches.of_later (.refl _) (Attempt.run_first rfl)
    (performer.foldUntil_performs sees idle pending same alike _)

theorem reduceOwn_performs {collection : Value} (charted : collection.ChartedIn stage.chart)
    (same : likeness.Same (collection.courseIn stage.chart) course) :
    Performs likeness performer.account stage (collection.reduceOwn function)
      (course.foldOwn performer.answer machine.limit) := by
  have pending : (Cursor.pending collection).ChartedIn stage.chart := charted
  rcases Cursor.next_run_charted (performer.alike state) idle pending same with
    ⟨step, after, ran, grows, idleAfter, steps⟩
  rw [Course.foldOwn]
  cases steps with
  | ended here =>
      rw [here]
      exact Reaches.of_later grows (Attempt.run_first ran) (performer.calls after idleAfter .nil)
  | error here =>
      rw [here]
      exact Reaches.of_later grows (Attempt.run_first ran) (Performs.throw idleAfter _)
  | element here itemAlike restCharted restSame =>
      rw [here]
      exact Reaches.of_later grows ((Attempt.run_first ran).trans (Attempt.run_first rfl))
        (performer.foldUntil_performs sees idleAfter restCharted restSame itemAlike _)

end Performer

/-! ## Reductions by a function -/

/-- What holds of all reductions by a function. -/
structure FoldsElements (machine : Machine) (function : Value) : Prop where
  /-- A reduction is a left fold: the function is called with each element in turn, up to the stop,
  the end or the first error, and no further element is read. -/
  reduce : ∀ {collection start : Value} {world after : World} {outcome : Except Error Value},
    (collection.reduce function start).run machine world = some (outcome, after) ↔
      ∃ turns, turns.length ≤ machine.limit ∧
        Folds machine function (.pending collection) start world turns outcome after
  /-- Without a start it is the fold of the others that starts with the first element. -/
  reduceOwn : ∀ {collection : Value} {world after : World} {outcome : Except Error Value},
    (collection.reduceOwn function).run machine world = some (outcome, after) ↔
      ∃ turns, turns.length ≤ machine.limit + 1 ∧
        FoldsOwn machine function (.pending collection) world turns outcome after
  /-- A lazy seq stays as it is if it is not forced for an element that is read, and if no call
  does anything to it. -/
  unread : ∀ {cursor : Cursor} {start : Value} {world after : World} {turns : List Turn}
    {outcome : Except Error Value} {cell : Ref .deferred},
    Folds machine function cursor start world turns outcome after ∨
      FoldsOwn machine function cursor world turns outcome after →
    (∀ turn ∈ turns, turn.Spares cell) →
      after.deferred.get? cell.index = world.deferred.get? cell.index
  /-- Lists, vectors and cons chains of the same elements are reduced to the same. -/
  atHand : ∀ {value other : Value} {items : List Value}, Cursor.Offers (.pending value) items →
    Cursor.Offers (.pending other) items → ∀ world,
      (∀ start, (value.reduce function start).run machine world =
        (other.reduce function start).run machine world) ∧
      (value.reduceOwn function).run machine world = (other.reduceOwn function).run machine world
  /-- Whatever has the same course is reduced to the same, lazy seqs included, as far as they are
  accounted for. -/
  charted : ∀ {likeness : Likeness} (performer : Performer machine likeness function),
    likeness.SeesReduced → ∀ {state : performer.State}
      (stage : Stage (performer.account state)), stage.Idle → ∀ {collection : Value}
      {course : Course}, collection.ChartedIn stage.chart →
    likeness.Same (collection.courseIn stage.chart) course →
      (∀ start expected, likeness.Alike start expected →
        Performs likeness performer.account stage (collection.reduce function start)
          (course.fold performer.answer machine.limit expected)) ∧
      Performs likeness performer.account stage (collection.reduceOwn function)
        (course.foldOwn performer.answer machine.limit)

/-- A function that answers the same whatever the world is, and leaves it as it is. -/
def FixedBodies.performer {machine : Machine} {likeness : Likeness} {chart : Chart}
    (bodies : FixedBodies machine likeness chart) {function : Value}
    (respond : List Value → Except Error Value)
    (calls : ∀ arguments world,
      machine.call machine.held function arguments world = some (respond arguments, world))
    (respects : ∀ arguments expected, List.Forall₂ likeness.Alike arguments expected →
      likeness.Agree (some (respond arguments)) (some (respond expected))) :
    Performer machine likeness function where
  State := Unit
  account _ := bodies.toAccount
  alike _ := rfl
  answer expected := fun state => some (respond expected, state)
  calls stage _ _ idle alike :=
    ⟨_, stage, calls _ _, .refl _, idle, respects _ _ alike⟩

/-! Three lazy seqs, each of which is behind the element before. The last one fails, if it is asked
for. -/

def brittleChart : Chart
  | 0 => some ⟨.cons (.character 'a') (.cons (.character 'b') failing), 0⟩
  | 1 => some ⟨.cons (.character 'b') failing, 0⟩
  | 2 => some ⟨failing, 0⟩
  | _ => none

/-- Goes on from nil with the first element, and stops at the next one. -/
def stopAtSecond : List Value → Except Error Value
  | [accumulated, item] =>
      .ok (match accumulated with
        | .nil => item
        | _ => .reduced 0 (.boolean true))
  | _ => .error .bindingStackUnderflow

def brittleMachine : Machine where
  call _ function arguments world :=
    match function with
    | .character 'x' => some (.ok (.cons 0 (.character 'a') (.lazySeq ⟨1⟩)), world)
    | .character 'y' => some (.ok (.cons 0 (.character 'b') (.lazySeq ⟨2⟩)), world)
    | .character 'z' => some (.error .bindingStackUnderflow, world)
    | _ => some (stopAtSecond arguments, world)
  held := []
  limit := 5

def brittleBodies : FixedBodies brittleMachine .sameEntry brittleChart where
  body
    | 0 => .character 'x'
    | 1 => .character 'y'
    | _ => .character 'z'
  outcome
    | 0 => .ok (.cons 0 (.character 'a') (.lazySeq ⟨1⟩))
    | 1 => .ok (.cons 0 (.character 'b') (.lazySeq ⟨2⟩))
    | _ => .error .bindingStackUnderflow
  starts := by decide
  shallow {cell _} marked := by
    match cell with
    | 0 | 1 | 2 => cases marked; decide
    | _ + 3 => cases marked
  calls {cell _} marked world := by
    match cell with
    | 0 | 1 | 2 => rfl
    | _ + 3 => cases marked
  answers {cell _} marked := by
    match cell with
    | 0 | 1 =>
        cases marked
        exact ⟨⟨_, rfl⟩, Nat.le_refl 0, .refl _⟩
    | 2 =>
        cases marked
        rfl
    | _ + 3 => cases marked

def brittleWorld : World :=
  { World.initial with
    deferred :=
      ⟨#[.pending (.character 'x'), .pending (.character 'y'), .pending (.character 'z')]⟩ }

def brittleStage : Stage brittleBodies.toAccount where
  chart := brittleChart
  world := brittleWorld
  kept := by
    refine ⟨rfl, fun cell mark marked => ?_⟩
    match cell with
    | 0 | 1 | 2 => exact ⟨_, rfl, .pending⟩
    | _ + 3 => cases marked

theorem Likeness.sameEntry_seesReduced : Likeness.sameEntry.SeesReduced := by
  intro left right alike
  cases alike with
  | refl => exact ⟨rfl, .refl⟩
  | entry => exact ⟨rfl, .entry⟩

theorem stopAtSecond_respects (arguments expected : List Value)
    (alike : List.Forall₂ Likeness.sameEntry.Alike arguments expected) :
    Likeness.sameEntry.Agree (some (stopAtSecond arguments)) (some (stopAtSecond expected)) := by
  match alike with
  | .nil | .cons _ .nil | .cons _ (.cons _ (.cons _ _)) => exact .error
  | .cons first (.cons second .nil) =>
      cases first with
      | refl =>
          unfold stopAtSecond
          dsimp only
          split
          · exact .element second
          · exact .refl _
      | entry => exact .refl _

end LispRuntime
