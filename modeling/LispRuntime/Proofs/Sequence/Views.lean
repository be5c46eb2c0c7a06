import LispRuntime.Proofs.Sequence.Walking

/-! All ways to look at the elements of a value show one course, the one that the cursor shows. It
does not matter what has been realized before, by looking in one of these ways or otherwise. -/

namespace LispRuntime

variable {machine : Machine} {account : Account machine} {stage : Stage account}

/-- A seq where the walk meets something: nil at the end only. -/
inductive SeqAt : Cursor.Yield → Except Error Value → Prop where
  | ended : SeqAt none (.ok .nil)
  | error {error : Error} : SeqAt (some (.error error)) (.error error)
  | full {item seq : Value} (full : seq.isFull = true) : SeqAt (some (.ok item)) (.ok seq)

theorem Account.Shows.seqAt {course : Course} {outcome : Except Error Value}
    (shows : account.Shows course outcome stage) : SeqAt (course 0) outcome := by
  cases outcome with
  | error error =>
      rw [show course 0 = some (.error error) from shows]
      exact .error
  | ok seq =>
      have seqOf : SeqOf account.toLikeness stage.chart course seq := shows
      cases seqOf.begins with
      | ended here =>
          rw [here]
          exact .ended
      | list here =>
          rw [here]
          exact .full rfl
      | cons here =>
          rw [here]
          exact .full rfl

namespace Value

/-- Whichever way one looks at the value, now, it shows the course. What a cursor yields is the
course itself. -/
structure Shows (value : Value) (stage : Stage account) (course : Course) : Prop where
  cursor : ∀ count, stage.Ends (takeSteps count (.pending value)) fun steps _ =>
    account.SameSteps steps (course.take count)
  seq : stage.Ends value.seq.run fun outcome _ => SeqAt (course 0) outcome
  first : ∀ count, stage.Ends (do first (← value.advance count)).run fun outcome _ =>
    account.Finds (.ok nil) (course.reach count) outcome
  next : ∀ count, stage.Ends (value.advance (count + 1)).run fun outcome _ =>
    SeqAt (course.reach (count + 1)) outcome
  toItems : ∀ length last, course.Comes length last → (∀ item, last ≠ some (.ok item)) →
    length < machine.limit → stage.Ends value.toItems.run fun outcome _ =>
      ∃ items : List Value, account.SameSteps (items.map .ok) (course.take length) ∧
        outcome = Cursor.ending last items
  count : ∀ length last, course.Comes length last → (∀ item, last ≠ some (.ok item)) →
    (value.isLinked = true → length < machine.limit) →
      stage.Ends value.count.run fun outcome _ => outcome = Cursor.ending last length
  nth : value.isSequential = true → ∀ index : UInt64, ∃ length,
    course.Comes length (course.reach index.toNat) ∧
      Course.Stops index.toNat length (course.reach index.toNat) ∧
      ((value.isLinked = true → length < machine.limit) →
        stage.Ends (value.nth index).run fun outcome _ =>
          account.Finds (.error (.indexOutOfBounds index.toInt64 length))
            (course.reach index.toNat) outcome)

theorem shows {value : Value} (seqable : value.isSeqable = true)
    (charted : value.ChartedIn stage.chart) (idle : stage.Idle) :
    value.Shows stage (value.courseIn stage.chart) where
  cursor count := takeSteps_ends count _ charted idle (.refl _)
  seq := (seq_ends charted idle).weaken fun _ _ _ shows => shows.seqAt
  first count := first_advance_ends count charted idle
  next count := (advance_ends count charted idle (.refl _)).weaken fun _ _ _ shows => shows.seqAt
  toItems _ _ comes ended within := toItems_ends charted idle comes ended within
  count _ _ comes ended within := count_ends seqable charted idle comes ended within
  nth sequential index := by
    rcases Course.exists_stops (value.courseIn stage.chart) index.toNat with ⟨length, comes, stops⟩
    exact ⟨length, comes, stops, nth_ends sequential charted idle comes stops⟩

end Value

/-! ## Bodies that always answer the same -/

/-- An entry is the same as another entry of the same key and value. Anything else is the same as
itself only. -/
inductive SameEntry : Value → Value → Prop where
  | refl {value : Value} : SameEntry value value
  | entry {left right : Nat} {key value : Value} :
      SameEntry (.vector left [key, value] none) (.vector right [key, value] none)

def Likeness.sameEntry : Likeness where
  Alike := SameEntry
  equivalence :=
    { refl := fun _ => .refl
      symm := fun alike => by
        cases alike with
        | refl => exact .refl
        | entry => exact .entry
      trans := fun alike alikeAgain => by
        cases alike with
        | refl => exact alikeAgain
        | entry =>
            cases alikeAgain with
            | refl => exact .entry
            | entry => exact .entry }
  entries _ _ _ _ := .entry

/-- Bodies that answer the same whatever the world is, and leave it as it is. -/
structure FixedBodies (machine : Machine) (likeness : Likeness) (chart : Chart) where
  body : Nat → Value
  outcome : Nat → Except Error Value
  starts : 0 < machine.limit
  shallow : ∀ {cell : Nat} {mark : Mark}, chart cell = some mark → mark.depth + 1 < machine.limit
  calls : ∀ {cell : Nat} {mark : Mark}, chart cell = some mark → ∀ world,
    machine.call machine.held (body cell) [] world = some (outcome cell, world)
  answers : ∀ {cell : Nat} {mark : Mark}, chart cell = some mark →
    mark.Answers likeness chart (outcome cell)

namespace FixedBodies

variable {likeness : Likeness} {chart : Chart} (bodies : FixedBodies machine likeness chart)

/-- A lazy seq has its own body until it has been realized. -/
inductive Has (cell : Nat) (mark : Mark) : Deferred → Prop where
  | pending : Has cell mark (.pending (bodies.body cell))
  | running : Has cell mark (.running (bodies.body cell))
  | realized {seq : Value} (seqOf : SeqOf likeness chart mark.course seq) :
      Has cell mark (.realized seq)

def Kept (world : World) : Prop :=
  ∀ cell mark, chart cell = some mark →
    ∃ state, world.deferred.get? cell = some state ∧ bodies.Has cell mark state

variable {bodies} {world after : World}

theorem Kept.setting {cell : Nat} {mark : Mark} {state new : Deferred} (kept : bodies.Kept world)
    (marked : chart cell = some mark) (here : world.deferred.get? cell = some state)
    (has : bodies.Has cell mark new) : bodies.Kept (world.settingDeferred cell new) := by
  intro other otherMark otherMarked
  by_cases same : other = cell
  · subst same
    cases marked.symm.trans otherMarked
    exact ⟨new, Store.get?_set_self new here, has⟩
  · rcases kept other otherMark otherMarked with ⟨state, there, hasState⟩
    exact ⟨state, (Store.get?_set_of_ne _ _ same).trans there, hasState⟩

theorem Kept.has {cell : Nat} {mark : Mark} {state : Deferred} (kept : bodies.Kept world)
    (marked : chart cell = some mark) (here : world.deferred.get? cell = some state) :
    bodies.Has cell mark state := by
  rcases kept cell mark marked with ⟨_, there, has⟩
  cases here.symm.trans there
  exact has

theorem Kept.realizes (kept : bodies.Kept world) (realizes : Realizes likeness chart world after) :
    bodies.Kept after := by
  cases realizes with
  | allocates => exact kept
  | starts marked here =>
      cases kept.has marked here
      exact kept.setting marked here .running
  | fails marked here =>
      cases kept.has marked here
      exact kept.setting marked here .pending
  | succeeds marked here seqOf => exact kept.setting marked here (.realized seqOf)

variable (bodies)

def toAccount : Account machine where
  toLikeness := likeness
  Kept other world := other = chart ∧ bodies.Kept world
  starts := bodies.starts
  shallow both marked := by
    rcases both with ⟨rfl, _⟩
    exact bodies.shallow marked
  charted both marked := by
    rcases both with ⟨rfl, kept⟩
    rcases kept _ _ marked with ⟨state, here, has⟩
    refine ⟨state, here, ?_⟩
    cases has with
    | pending => exact .pending
    | running => exact .running
    | realized seqOf => exact .realized seqOf
  realizes both realizes := by
    rcases both with ⟨rfl, kept⟩
    exact ⟨rfl, kept.realizes realizes⟩
  answers {_ world _ _ _} both marked here _ := by
    rcases both with ⟨rfl, kept⟩
    cases kept.has marked here
    exact ⟨_, _, world, bodies.calls marked world, fun _ _ => id, ⟨rfl, kept⟩,
      fun _ _ => .rfl, bodies.answers marked⟩

end FixedBodies

/-! A lazy seq that answers with another one; this one answers with a cons cell, and asking for
more than the first element fails. -/

def failing : Course := .failing .bindingStackUnderflow

def nestedChart : Chart
  | 0 => some ⟨.cons (.character 'a') failing, 1⟩
  | 1 => some ⟨.cons (.character 'a') failing, 0⟩
  | 2 => some ⟨failing, 0⟩
  | _ => none

def nestedMachine : Machine where
  call _ body _ world :=
    match body with
    | .character 'n' => some (.ok (.lazySeq ⟨1⟩), world)
    | .character 'c' => some (.ok (.cons 0 (.character 'a') (.lazySeq ⟨2⟩)), world)
    | _ => some (.error .bindingStackUnderflow, world)
  held := []
  limit := 3

def nestedBodies : FixedBodies nestedMachine .sameEntry nestedChart where
  body
    | 0 => .character 'n'
    | 1 => .character 'c'
    | _ => .nil
  outcome
    | 0 => .ok (.lazySeq ⟨1⟩)
    | 1 => .ok (.cons 0 (.character 'a') (.lazySeq ⟨2⟩))
    | _ => .error .bindingStackUnderflow
  starts := by decide
  shallow {cell _} marked := by
    match cell with
    | 0 | 1 | 2 => cases marked; decide
    | _ + 3 => cases marked
  calls {cell _} marked world := by
    match cell with
    | 0 | 1 | 2 => rfl
    | _ + 3 => cases marked
  answers {cell _} marked := by
    match cell with
    | 0 =>
        cases marked
        exact ⟨⟨_, rfl⟩, Nat.le_refl 1, .refl _⟩
    | 1 =>
        cases marked
        exact ⟨⟨_, rfl⟩, Nat.le_refl 0, .refl _⟩
    | 2 =>
        cases marked
        rfl
    | _ + 3 => cases marked

def nestedWorld : World :=
  { World.initial with
    deferred := ⟨#[.pending (.character 'n'), .pending (.character 'c'), .pending .nil]⟩ }

def nestedStage : Stage nestedBodies.toAccount where
  chart := nestedChart
  world := nestedWorld
  kept := by
    refine ⟨rfl, fun cell mark marked => ?_⟩
    match cell with
    | 0 | 1 | 2 => exact ⟨_, rfl, .pending⟩
    | _ + 3 => cases marked

end LispRuntime
