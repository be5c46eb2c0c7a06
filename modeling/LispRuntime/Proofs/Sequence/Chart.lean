import LispRuntime.Proofs.Sequence.Course
import LispRuntime.Proofs.World.Forcing
import Mathlib.Order.Basic

/-! Lazy seqs whose bodies answer the same on every run. A chart says which course a lazy seq has,
whether it has been realized or not. It accounts for the bodies of a machine if these, whenever
they run, answer with something of the course that is charted; the lazy seqs that they make are
charted in their turn. -/

namespace LispRuntime

/-- A lazy seq has a course. Bodies may need other lazy seqs and may answer with one, but only with
less deep ones. -/
structure Mark where
  course : Course
  depth : Nat

/-- What is known of the lazy seqs, by their cells. -/
abbrev Chart := Nat → Option Mark

namespace Chart

def Extends (before after : Chart) : Prop :=
  ∀ cell mark, before cell = some mark → after cell = some mark

/-- A lazy seq is being realized. -/
def Running (chart : Chart) (world : World) (cell : Nat) (body : Value) : Prop :=
  (∃ mark, chart cell = some mark) ∧ world.deferred.get? cell = some (.running body)

/-- Lazy seqs that are less deep than this are not being realized. -/
def Free (chart : Chart) (world : World) (depth : Nat) : Prop :=
  ∀ cell body mark, world.deferred.get? cell = some (.running body) → chart cell = some mark →
    depth ≤ mark.depth

end Chart

namespace Value

/-- What a walk over the value meets. An entry of a map stands for all that walks make of it. -/
def courseIn (chart : Chart) : Value → Course
  | nil => .of []
  | list _ items _ | vector _ items _ => .of items
  | string _ text => .of (text.toList.map character)
  | cons _ first rest => .cons first (rest.courseIn chart)
  | lazySeq cell =>
      match chart cell.index with
      | some mark => mark.course
      | none => .of []
  | value =>
      match value.mapEntries?, value.setItems? with
      | some entries, _ => .of (entries.map fun entry => .vector 0 [entry.1, entry.2] none)
      | none, some items => .of items
      | none, none => .failing (.wrongType "seq" "seqable" value.typeName)

/-- The lazy seqs are charted that a walk over the value comes to. -/
def ChartedIn (chart : Chart) : Value → Prop
  | cons _ _ rest => rest.ChartedIn chart
  | lazySeq cell => ∃ mark, chart cell.index = some mark
  | _ => True

def depthIn (chart : Chart) : Value → Nat
  | lazySeq cell =>
      match chart cell.index with
      | some mark => mark.depth + 1
      | none => 0
  | _ => 0

/-- A list that is not empty, or a cons cell. -/
def isFull : Value → Bool
  | list _ (_ :: _) _ | cons .. => true
  | _ => false

section

variable {before after : Chart}

theorem chartedIn_later (later : before.Extends after) {value : Value}
    (charted : value.ChartedIn before) : value.ChartedIn after := by
  fun_induction ChartedIn before value with
  | case1 _ _ rest induction => exact induction charted
  | case2 cell =>
      rcases charted with ⟨mark, marked⟩
      exact ⟨mark, later _ _ marked⟩
  | case3 value notCons notLazy =>
      cases value with
      | cons => exact (notCons _ _ _ rfl).elim
      | lazySeq => exact (notLazy _ rfl).elim
      | _ => trivial

theorem courseIn_later (later : before.Extends after) {value : Value}
    (charted : value.ChartedIn before) : value.courseIn after = value.courseIn before := by
  fun_induction ChartedIn before value with
  | case1 _ _ rest induction => rw [courseIn, courseIn, induction charted]
  | case2 cell =>
      rcases charted with ⟨mark, marked⟩
      simp only [courseIn, marked, later _ _ marked]
  | case3 value notCons notLazy =>
      cases value with
      | cons => exact (notCons _ _ _ rfl).elim
      | lazySeq => exact (notLazy _ rfl).elim
      | _ => rfl

end

end Value

/-- A seq of this course: nil, or one that is not empty. -/
structure SeqOf (likeness : Likeness) (chart : Chart) (course : Course) (seq : Value) : Prop where
  form : seq = .nil ∨ seq.isFull = true
  charted : seq.ChartedIn chart
  same : likeness.Same (seq.courseIn chart) course

/-- What realizing lazy seqs does to a world, apart from what the bodies do. -/
inductive Realizes (likeness : Likeness) (chart : Chart) (world : World) : World → Prop where
  | allocates : Realizes likeness chart world { world with addresses := world.addresses + 1 }
  | starts {cell : Nat} {mark : Mark} {body : Value} (marked : chart cell = some mark)
      (pending : world.deferred.get? cell = some (.pending body)) :
      Realizes likeness chart world (world.settingDeferred cell (.running body))
  | fails {cell : Nat} {mark : Mark} {body : Value} (marked : chart cell = some mark)
      (running : world.deferred.get? cell = some (.running body)) :
      Realizes likeness chart world (world.settingDeferred cell (.pending body))
  | succeeds {cell : Nat} {mark : Mark} {body seq : Value} (marked : chart cell = some mark)
      (running : world.deferred.get? cell = some (.running body))
      (seqOf : SeqOf likeness chart mark.course seq) :
      Realizes likeness chart world (world.settingDeferred cell (.realized seq))

/-- What a lazy seq may be. -/
inductive Charted (likeness : Likeness) (chart : Chart) (mark : Mark) : Deferred → Prop where
  | pending {body : Value} : Charted likeness chart mark (.pending body)
  | running {body : Value} : Charted likeness chart mark (.running body)
  | realized {seq : Value} (seqOf : SeqOf likeness chart mark.course seq) :
      Charted likeness chart mark (.realized seq)

/-- An answer of a body that goes with the mark of its lazy seq. -/
def Mark.Answers (likeness : Likeness) (chart : Chart) (mark : Mark) : Except Error Value → Prop
  | .error error => mark.course 0 = some (.error error)
  | .ok answer => answer.ChartedIn chart ∧ answer.depthIn chart ≤ mark.depth ∧
      likeness.Same (answer.courseIn chart) mark.course

/-- An account of the bodies of a machine. What is kept is the chart of all lazy seqs that a world
has come to have, and whatever else the bodies rely on: then they answer as it is charted on
every run, as long as no lazy seq that they may need is being realized. -/
structure Account (machine : Machine) extends Likeness where
  Kept : Chart → World → Prop
  starts : 0 < machine.limit
  shallow : ∀ {chart : Chart} {world : World} {cell : Nat} {mark : Mark}, Kept chart world →
    chart cell = some mark → mark.depth + 1 < machine.limit
  charted : ∀ {chart : Chart} {world : World} {cell : Nat} {mark : Mark}, Kept chart world →
    chart cell = some mark →
      ∃ state, world.deferred.get? cell = some state ∧ Charted toLikeness chart mark state
  realizes : ∀ {chart : Chart} {world after : World}, Kept chart world →
    Realizes toLikeness chart world after → Kept chart after
  answers : ∀ {chart : Chart} {world : World} {cell : Nat} {mark : Mark} {body : Value},
    Kept chart world → chart cell = some mark →
    world.deferred.get? cell = some (.running body) → chart.Free world mark.depth →
      ∃ outcome later after,
        machine.call machine.held body [] world = some (outcome, after) ∧
        chart.Extends later ∧ Kept later after ∧
        (∀ other otherBody, later.Running after other otherBody ↔
          chart.Running world other otherBody) ∧
        mark.Answers toLikeness later outcome

/-- A world whose lazy seqs are accounted for. -/
structure Stage {machine : Machine} (account : Account machine) where
  chart : Chart
  world : World
  kept : account.Kept chart world

namespace Stage

variable {machine : Machine} {account : Account machine}

/-- More lazy seqs may be charted later. The same are being realized. -/
structure Leads (before after : Stage account) : Prop where
  chart : before.chart.Extends after.chart
  running : ∀ cell body, after.chart.Running after.world cell body ↔
    before.chart.Running before.world cell body

instance : Preorder (Stage account) where
  le := Leads
  le_refl _ := ⟨fun _ _ => id, fun _ _ => .rfl⟩
  le_trans _ _ _ leads leadsAgain :=
    ⟨fun cell mark marked => leadsAgain.chart _ _ (leads.chart _ _ marked),
      fun cell body => (leadsAgain.running cell body).trans (leads.running cell body)⟩

def Free (stage : Stage account) (depth : Nat) : Prop := stage.chart.Free stage.world depth

/-- Nothing is being realized. -/
def Idle (stage : Stage account) : Prop :=
  ∀ cell body, ¬ stage.chart.Running stage.world cell body

variable {before after : Stage account}

theorem Free.later {depth : Nat} (free : before.Free depth) (le : before ≤ after) :
    after.Free depth := by
  intro cell body mark running marked
  rcases (le.running cell body).mp ⟨⟨mark, marked⟩, running⟩ with ⟨⟨old, markedBefore⟩, runs⟩
  cases (le.chart _ _ markedBefore).symm.trans marked
  exact free cell body _ runs markedBefore

theorem Free.of_le {small large : Nat} (free : before.Free large) (le : small ≤ large) :
    before.Free small :=
  fun cell body mark running marked => Nat.le_trans le (free cell body mark running marked)

theorem Idle.later (idle : before.Idle) (le : before ≤ after) : after.Idle :=
  fun cell body running => idle cell body ((le.running cell body).mp running)

theorem Idle.free (idle : before.Idle) (depth : Nat) : before.Free depth :=
  fun cell body mark running marked => (idle cell body ⟨⟨mark, marked⟩, running⟩).elim

end Stage

theorem SeqOf.of_same {likeness : Likeness} {chart : Chart} {course other : Course} {seq : Value}
    (seqOf : SeqOf likeness chart course seq) (same : likeness.Same course other) :
    SeqOf likeness chart other seq :=
  ⟨seqOf.form, seqOf.charted, seqOf.same.trans same⟩

end LispRuntime
