import LispRuntime.Collection.Access
import LispRuntime.Proofs.Sequence.Realizing

/-! Walks over values whose lazy seqs are accounted for, each way of walking against the course:
element by element, by cursor, to the end or up to an index. -/

namespace LispRuntime

variable {machine : Machine} {account : Account machine} {stage : Stage account}
  {likeness : Likeness} {chart : Chart} {course : Course}

/-! ## Element by element -/

/-- A seq begins with the first element of its course. -/
inductive Begins (likeness : Likeness) (chart : Chart) (course : Course) : Value → Prop where
  | ended (here : course 0 = none) : Begins likeness chart course .nil
  | list {address : Nat} {first item : Value} {rest : List Value} {metadata : Option Value}
      (here : course 0 = some (.ok item)) (alike : likeness.Alike first item)
      (same : likeness.Same (.of rest) course.tail) :
      Begins likeness chart course (.list address (first :: rest) metadata)
  | cons {address : Nat} {first rest item : Value} (here : course 0 = some (.ok item))
      (alike : likeness.Alike first item) (charted : rest.ChartedIn chart)
      (same : likeness.Same (rest.courseIn chart) course.tail) :
      Begins likeness chart course (.cons address first rest)

theorem Likeness.Agree.of_element {found : Value} {yield : Cursor.Yield}
    (agree : likeness.Agree (some (.ok found)) yield) :
    ∃ item, yield = some (.ok item) ∧ likeness.Alike found item := by
  cases agree with
  | element alike => exact ⟨_, rfl, alike⟩

theorem Likeness.Agree.of_end {yield : Cursor.Yield} (agree : likeness.Agree none yield) :
    yield = none := by
  cases agree with
  | ended => rfl

theorem SeqOf.begins {seq : Value} (seqOf : SeqOf likeness chart course seq) :
    Begins likeness chart course seq := by
  rcases seqOf with ⟨form, charted, same⟩
  cases seq with
  | nil => exact .ended (same 0).of_end
  | list address items metadata =>
      cases items with
      | nil => rcases form with impossible | impossible <;> cases impossible
      | cons first rest =>
          rcases (same 0).of_element with ⟨item, here, alike⟩
          exact .list here alike same.tail
  | cons address first rest =>
      rcases (same 0).of_element with ⟨item, here, alike⟩
      exact .cons here alike charted same.tail
  | _ => rcases form with impossible | impossible <;> cases impossible

/-- What has been found where the walk meets something: an element, its error, or what stands for
an element where there is none. -/
inductive Likeness.Finds (likeness : Likeness) (absent : Except Error Value) :
    Cursor.Yield → Except Error Value → Prop where
  | ended : Finds likeness absent none absent
  | error {error : Error} : Finds likeness absent (some (.error error)) (.error error)
  | element {found item : Value} (alike : likeness.Alike found item) :
      Finds likeness absent (some (.ok item)) (.ok found)

theorem Likeness.Finds.of_agree {absent outcome : Except Error Value} {yield other : Cursor.Yield}
    (finds : likeness.Finds absent yield outcome) (agree : likeness.Agree yield other) :
    likeness.Finds absent other outcome := by
  cases finds with
  | ended =>
      cases agree
      exact .ended
  | error =>
      cases agree
      exact .error
  | element alike =>
      cases agree with
      | element alikeAgain => exact .element (likeness.equivalence.trans alike alikeAgain)

/-- What is left of a walk after its first element. -/
def Account.Leaves (account : Account machine) (course : Course) :
    Except Error Value → Stage account → Prop
  | .error error, _ => course 0 = some (.error error)
  | .ok rest, after => rest.ChartedIn after.chart ∧
      account.toLikeness.Same (rest.courseIn after.chart) course.onward

namespace Value

theorem first_ends {value : Value} (charted : value.ChartedIn stage.chart) (idle : stage.Idle) :
    stage.Ends value.first.run fun outcome _ =>
      account.toLikeness.Finds (.ok .nil) (value.courseIn stage.chart 0) outcome := by
  apply (seq_ends charted idle).attempt
  · intro error after _ shows
    rw [show value.courseIn stage.chart 0 = some (.error error) from shows]
    exact .error
  · intro seq between _ shows
    cases SeqOf.begins shows with
    | ended here =>
        rw [here]
        exact Run.Ends.pure .ended
    | list here alike same =>
        rw [here]
        exact Run.Ends.pure (.element alike)
    | cons here alike charted same =>
        rw [here]
        exact Run.Ends.pure (.element alike)

theorem newList_leaves {items : List Value}
    (same : account.toLikeness.Same (.of items) course.onward) :
    stage.Ends (ExceptT.lift (newList items none) : Attempt Value).run
      (account.Leaves course) := by
  apply Run.Ends.lift ((newList_ends items none).weaken _)
  intro rest after _ isList
  rcases isList with ⟨address, rfl⟩
  exact ⟨trivial, same⟩

theorem rest_ends {value : Value} (charted : value.ChartedIn stage.chart) (idle : stage.Idle) :
    stage.Ends value.rest.run (account.Leaves (value.courseIn stage.chart)) := by
  apply (seq_ends charted idle).attempt
  · exact fun error after _ shows => shows
  · intro seq between _ shows
    cases SeqOf.begins shows with
    | ended here => exact newList_leaves (Course.onward_of_end here ▸ .refl _)
    | list here alike same => exact newList_leaves (Course.onward_of_element here ▸ same)
    | @cons _ _ rest _ here alike charted same =>
        rw [← Course.onward_of_element here] at same
        cases rest with
        | nil => exact newList_leaves same
        | _ => exact Run.Ends.pure ⟨charted, same⟩

theorem next_ends {value : Value} (charted : value.ChartedIn stage.chart) (idle : stage.Idle) :
    stage.Ends value.next.run (account.Shows (value.courseIn stage.chart).onward) := by
  apply (rest_ends charted idle).attempt
  · intro error after _ here
    exact congrFun (Course.onward_of_error here) 0
  · intro rest between le leaves
    apply (seq_ends leaves.1 (idle.later le)).weaken
    exact fun outcome after _ shows => Account.Shows.of_same shows leaves.2

/-- What is left of a value after `next` has been taken so many times. -/
def advance : Nat → Value → Attempt Value
  | 0, value => return value
  | count + 1, value => do advance count (← value.next)

/-- After the first time it is a seq. -/
theorem advance_ends {value : Value} (count : Nat) (charted : value.ChartedIn stage.chart)
    (idle : stage.Idle) (same : account.toLikeness.Same (value.courseIn stage.chart) course) :
    stage.Ends (value.advance (count + 1)).run (account.Shows (course.past (count + 1))) := by
  induction count generalizing stage value course with
  | zero =>
      apply (next_ends charted idle).attempt
      · exact fun error after _ shows => Account.Shows.of_same shows same.onward
      · exact fun seq between _ shows =>
          Run.Ends.pure (Account.Shows.of_same shows same.onward)
  | succ count induction =>
      apply (next_ends charted idle).attempt
      · intro error after _ shows
        exact Course.reach_of_error (Account.Shows.of_same shows same.onward) (count + 1)
      · intro seq between le shows
        have seqOf := SeqOf.of_same shows same.onward
        exact induction seqOf.charted (idle.later le) seqOf.same

theorem first_advance_ends {value : Value} (count : Nat)
    (charted : value.ChartedIn stage.chart) (idle : stage.Idle) :
    stage.Ends (do first (← value.advance count)).run fun outcome _ =>
      account.toLikeness.Finds (.ok .nil) ((value.courseIn stage.chart).reach count) outcome := by
  cases count with
  | zero => exact first_ends charted idle
  | succ count =>
      apply (advance_ends count charted idle (.refl _)).attempt
      · intro error after _ shows
        rw [show Course.reach _ (count + 1) = _ from shows]
        exact .error
      · intro seq between le shows
        have seqOf : SeqOf _ _ _ seq := shows
        apply (first_ends seqOf.charted (idle.later le)).weaken
        exact fun outcome after _ finds => finds.of_agree (seqOf.same 0)

end Value

/-! ## By cursor -/

namespace Cursor

def courseIn (chart : Chart) : Cursor → Course
  | pending value => value.courseIn chart
  | items rest => .of rest
  | done => .of []

def ChartedIn (chart : Chart) : Cursor → Prop
  | pending value => value.ChartedIn chart
  | _ => True

section

variable {before after : Chart} {cursor : Cursor} (later : before.Extends after)
  (charted : cursor.ChartedIn before)
include later charted

theorem chartedIn_later : cursor.ChartedIn after := by
  cases cursor with
  | pending value => exact Value.chartedIn_later later charted
  | items | done => trivial

theorem courseIn_later : cursor.courseIn after = cursor.courseIn before := by
  cases cursor with
  | pending value => exact Value.courseIn_later later charted
  | items | done => rfl

end

/-- One step along a course. After an error the cursor is done. -/
inductive Steps (likeness : Likeness) (chart : Chart) (course : Course) :
    Yield × Cursor → Prop where
  | ended (here : course 0 = none) : Steps likeness chart course (none, .done)
  | error {error : Error} (here : course 0 = some (.error error)) :
      Steps likeness chart course (some (.error error), .done)
  | element {found item : Value} {rest : Cursor} (here : course 0 = some (.ok item))
      (alike : likeness.Alike found item) (charted : rest.ChartedIn chart)
      (same : likeness.Same (rest.courseIn chart) course.tail) :
      Steps likeness chart course (some (.ok found), rest)

theorem Steps.agree {likeness : Likeness} {chart : Chart} {course : Course}
    {step : Yield × Cursor} (steps : Steps likeness chart course step) :
    likeness.Agree step.1 (course 0) := by
  cases steps with
  | ended here => exact here.symm ▸ Likeness.Agree.ended
  | error here => exact here.symm ▸ Likeness.Agree.error
  | element here alike => exact here.symm ▸ Likeness.Agree.element alike

theorem nextItem_steps {items : List Value} (same : likeness.Same (.of items) course) :
    Steps likeness chart course (nextItem items) := by
  cases items with
  | nil => exact .ended (same 0).of_end
  | cons first rest =>
      rcases (same 0).of_element with ⟨item, here, alike⟩
      exact .element here alike trivial same.tail

theorem next_ends {cursor : Cursor} (charted : cursor.ChartedIn stage.chart)
    (idle : stage.Idle) (same : account.toLikeness.Same (cursor.courseIn stage.chart) course) :
    stage.Ends cursor.next fun step after => Steps account.toLikeness after.chart course step := by
  unfold next
  split
  case h_1 => exact Run.Ends.pure (.ended (same 0).of_end)
  case h_2 | h_3 | h_4 => exact Run.Ends.pure (nextItem_steps same)
  case h_5 value _ _ =>
    apply (Value.seq_ends charted idle).bind
    intro outcome between _ shows
    replace shows := Account.Shows.of_same shows same
    cases outcome with
    | error error => exact Run.Ends.pure (.error shows)
    | ok seq =>
        cases SeqOf.begins shows with
        | ended here => exact Run.Ends.pure (.ended here)
        | list here alike same => exact Run.Ends.pure (.element here alike trivial same)
        | cons here alike charted same => exact Run.Ends.pure (.element here alike charted same)

end Cursor

theorem Value.takeSteps_ends (count : Nat) (cursor : Cursor)
    (charted : cursor.ChartedIn stage.chart) (idle : stage.Idle)
    (same : account.toLikeness.Same (cursor.courseIn stage.chart) course) :
    stage.Ends (takeSteps count cursor) fun steps _ =>
      account.toLikeness.SameSteps steps (course.take count) := by
  induction count generalizing stage cursor course with
  | zero => exact Run.Ends.pure .nil
  | succ count induction =>
      apply (Cursor.next_ends charted idle same).bind
      intro step between le steps
      rw [Course.take]
      cases steps with
      | ended here =>
          rw [here]
          exact Run.Ends.pure .nil
      | error here =>
          rw [here]
          apply (induction .done trivial (idle.later le) (.refl _)).bind
          intro steps after _ sameSteps
          rw [Course.take_of_end rfl] at sameSteps
          cases sameSteps
          exact Run.Ends.pure (.cons .error .nil)
      | element here alike charted same =>
          rw [here]
          apply (induction _ charted (idle.later le) same).bind
          intro steps after _ sameSteps
          exact Run.Ends.pure (.cons (.element alike) sameSteps)

/-! ## To the end -/

/-- A walk to the end ends with its error, or with an answer. -/
def Cursor.ending {α : Type} (last : Cursor.Yield) (answer : α) : Except Error α :=
  match last with
  | some (.error error) => .error error
  | _ => .ok answer

theorem Cursor.map_ending {α β : Type} (last : Cursor.Yield) (answer : α) (change : α → β) :
    (Cursor.ending last answer).map change = Cursor.ending last (change answer) := by
  rcases last with _ | _ | _ <;> rfl

theorem Cursor.foldUntil_ends {σ : Type} {fuel length : Nat} {last : Cursor.Yield}
    (visit : σ → Value → σ) (state : σ) (cursor : Cursor)
    (charted : cursor.ChartedIn stage.chart) (idle : stage.Idle)
    (same : account.toLikeness.Same (cursor.courseIn stage.chart) course)
    (comes : course.Comes length last) (ended : ∀ item, last ≠ some (.ok item))
    (within : length < fuel) :
    stage.Ends (Cursor.foldUntil (fun state item => return .inl (visit state item)) fuel state
        cursor).run fun outcome _ =>
      ∃ items : List Value, account.toLikeness.SameSteps (items.map .ok) (course.take length) ∧
        outcome = Cursor.ending last (items.foldl visit state) := by
  induction fuel generalizing stage cursor course length state with
  | zero => cases within
  | succ fuel induction =>
      apply (Cursor.next_ends charted idle same).first
      intro step between le steps
      cases steps with
      | ended here =>
          rcases comes.here (here ▸ fun _ => nofun) with ⟨rfl, met⟩
          cases here.symm.trans met
          exact Run.Ends.pure ⟨[], .nil, rfl⟩
      | error here =>
          rcases comes.here (here ▸ fun _ => nofun) with ⟨rfl, met⟩
          cases here.symm.trans met
          exact Run.Ends.pure ⟨[], .nil, rfl⟩
      | @element found _ rest here alike charted same =>
          cases length with
          | zero => exact (ended _ (comes.2.symm.trans here)).elim
          | succ length =>
              apply (induction (visit state found) rest charted (idle.later le) same
                ((Course.comes_succ_iff here).mp comes) (Nat.lt_of_succ_lt_succ within)).weaken
              intro outcome after _ folded
              rcases folded with ⟨items, sameSteps, rfl⟩
              refine ⟨found :: items, ?_, rfl⟩
              rw [Course.take, here]
              exact .cons (.element alike) sameSteps

namespace Value

section

variable {value : Value} {length : Nat} {last : Cursor.Yield}

theorem toItems_ends (charted : value.ChartedIn stage.chart) (idle : stage.Idle)
    (comes : (value.courseIn stage.chart).Comes length last)
    (ended : ∀ item, last ≠ some (.ok item)) (within : length < machine.limit) :
    stage.Ends value.toItems.run fun outcome _ =>
      ∃ items : List Value,
        account.toLikeness.SameSteps (items.map .ok) ((value.courseIn stage.chart).take length) ∧
        outcome = Cursor.ending last items := by
  apply stage.limit_ends.first
  intro limit between _ same
  rcases same with ⟨rfl, rfl⟩
  have folded := Cursor.foldUntil_ends (fun items item => item :: items) [] (.pending value)
    charted idle (.refl _) comes ended within
  apply folded.mapped
  intro outcome after folded
  rcases folded with ⟨items, sameSteps, rfl⟩
  refine ⟨items, sameSteps, ?_⟩
  rw [Cursor.map_ending, List.foldl_flip_cons_eq_append', List.append_nil, List.reverse_reverse]

theorem countSteps_ends (charted : value.ChartedIn stage.chart) (idle : stage.Idle)
    (comes : (value.courseIn stage.chart).Comes length last)
    (ended : ∀ item, last ≠ some (.ok item)) (within : length < machine.limit) :
    stage.Ends value.countSteps.run fun outcome _ => outcome = Cursor.ending last length := by
  apply stage.limit_ends.first
  intro limit between _ same
  rcases same with ⟨rfl, rfl⟩
  have folded := Cursor.foldUntil_ends (fun count _ => count + 1) 0 (.pending value)
    charted idle (.refl _) comes ended within
  apply folded.weaken
  intro outcome after _ counted
  rcases counted with ⟨items, sameSteps, rfl⟩
  have counted : items.length = length :=
    calc
      items.length = (items.map Except.ok).length := (List.length_map _).symm
      _ = ((value.courseIn between.chart).take length).length := List.Forall₂.length_eq sameSteps
      _ = length := comes.length_take
  rw [List.foldl_add_const, Nat.zero_add, Nat.one_mul, counted]

/-- Values of which the elements are met one after another, and not by their index. -/
def isLinked : Value → Bool
  | cons .. | lazySeq .. => true
  | _ => false

theorem count_ends (seqable : value.isSeqable = true) (charted : value.ChartedIn stage.chart)
    (idle : stage.Idle) (comes : (value.courseIn stage.chart).Comes length last)
    (ended : ∀ item, last ≠ some (.ok item))
    (within : value.isLinked = true → length < machine.limit) :
    stage.Ends value.count.run fun outcome _ => outcome = Cursor.ending last length := by
  -- Elements that are at hand are counted without a walk.
  have atHand (items : List Value) (same : value.courseIn stage.chart = .of items) :
      Cursor.ending last length = .ok items.length := by
    rw [same] at comes
    rcases comes.unique ended (Course.comes_of_items items) (fun _ => nofun) with ⟨rfl, rfl⟩
    rfl
  cases value with
  | cons | lazySeq => exact countSteps_ends charted idle comes ended (within rfl)
  | nil => exact Run.Ends.pure (atHand [] rfl).symm
  | list address items | vector address items => exact Run.Ends.pure (atHand items rfl).symm
  | string address text =>
      have counted := atHand (text.toList.map character) rfl
      rw [List.length_map, String.length_toList] at counted
      exact Run.Ends.pure counted.symm
  | arrayMap _ entries | sortedMap _ entries =>
      have counted := atHand (entries.map fun entry => .vector 0 [entry.1, entry.2] none) rfl
      rw [List.length_map] at counted
      exact Run.Ends.pure counted.symm
  | hashMap _ entries =>
      have counted := atHand ((entries.map Prod.snd).map fun entry =>
        .vector 0 [entry.1, entry.2] none) rfl
      rw [List.length_map] at counted
      exact Run.Ends.pure counted.symm
  | hashSet _ items => exact Run.Ends.pure (atHand (items.map Prod.snd) rfl).symm
  | sortedSet _ items => exact Run.Ends.pure (atHand items rfl).symm
  | _ => cases seqable

/-! ## Up to an index -/

/-- What is ahead: an element, an error, or the end after so many elements. -/
inductive Ahead (likeness : Likeness) (length : Nat) :
    Cursor.Yield → Except Error (Value ⊕ Nat) → Prop where
  | ended : Ahead likeness length none (.ok (.inr length))
  | error {error : Error} : Ahead likeness length (some (.error error)) (.error error)
  | element {found item : Value} (alike : likeness.Alike found item) :
      Ahead likeness length (some (.ok item)) (.ok (.inl found))

theorem elementAhead_ends {fuel ahead : Nat} (passed : Nat) (cursor : Cursor)
    (charted : cursor.ChartedIn stage.chart) (idle : stage.Idle)
    (same : account.toLikeness.Same (cursor.courseIn stage.chart) course)
    (comes : course.Comes length last) (stops : Course.Stops ahead length last)
    (within : length < fuel) :
    stage.Ends (elementAhead fuel ahead passed cursor).run fun outcome _ =>
      Ahead account.toLikeness (passed + length) last outcome := by
  induction fuel generalizing stage cursor course ahead passed length with
  | zero => cases within
  | succ fuel induction =>
      apply (Cursor.next_ends charted idle same).first
      intro step between le steps
      cases steps with
      | ended here =>
          rcases comes.here (here ▸ fun _ => nofun) with ⟨rfl, met⟩
          cases here.symm.trans met
          exact Run.Ends.pure .ended
      | error here =>
          rcases comes.here (here ▸ fun _ => nofun) with ⟨rfl, met⟩
          cases here.symm.trans met
          exact Run.Ends.pure .error
      | @element found item rest here alike charted same =>
          cases length with
          | zero =>
              have met : last = some (.ok item) := comes.2.symm.trans here
              rcases stops with rfl | ⟨_, ended⟩
              · rw [met]
                exact Run.Ends.pure (.element alike)
              · exact (ended item met).elim
          | succ length =>
              cases ahead with
              | zero => rcases stops with impossible | ⟨impossible, _⟩ <;> cases impossible
              | succ ahead =>
                  have stopsAhead : Course.Stops ahead length last :=
                    stops.imp Nat.succ.inj (And.imp_left Nat.lt_of_succ_lt_succ)
                  have goesOn := induction (passed + 1) rest charted (idle.later le) same
                    ((Course.comes_succ_iff here).mp comes) stopsAhead
                    (Nat.lt_of_succ_lt_succ within)
                  rw [Nat.add_right_comm] at goesOn
                  exact goesOn

section

variable {index : UInt64}

/-- The element at an index of elements at hand. -/
theorem atHand_ends {items : List Value}
    (comes : (Course.of items).Comes length ((Course.of items).reach index.toNat)) :
    stage.Ends (match items[index.toNat]? with
        | some item => return item
        | none => throw (.indexOutOfBounds index.toInt64 items.length) : Attempt Value).run
      fun outcome _ => account.toLikeness.Finds (.error (.indexOutOfBounds index.toInt64 length))
        ((Course.of items).reach index.toNat) outcome := by
  rw [Course.reach_of_items] at comes ⊢
  cases found : items[index.toNat]? with
  | some item => exact Run.Ends.pure (.element (account.equivalence.refl item))
  | none =>
      rw [found] at comes
      rcases comes.unique (fun _ => nofun) (Course.comes_of_items items) (fun _ => nofun) with
        ⟨rfl, _⟩
      exact Run.Ends.pure .ended

/-- The element at an index that is walked to. -/
theorem walked_ends (charted : value.ChartedIn stage.chart) (idle : stage.Idle)
    (comes : (value.courseIn stage.chart).Comes length last)
    (stops : Course.Stops index.toNat length last) (within : length < machine.limit) :
    stage.Ends (do
        match ← elementAhead (← Run.limit) index.toNat 0 (.pending value) with
        | .inl item => return item
        | .inr length => throw (.indexOutOfBounds index.toInt64 length) : Attempt Value).run
      fun outcome _ => account.toLikeness.Finds (.error (.indexOutOfBounds index.toInt64 length))
        last outcome := by
  apply stage.limit_ends.first
  intro limit between _ same
  rcases same with ⟨rfl, rfl⟩
  have ahead := elementAhead_ends 0 (.pending value) charted idle (.refl _) comes stops within
  apply ahead.attempt
  · intro error after _ ahead
    cases ahead
    exact .error
  · intro result after _ ahead
    cases ahead with
    | ended =>
        rw [Nat.zero_add]
        exact Run.Ends.pure .ended
    | element alike => exact Run.Ends.pure (.element alike)

theorem nth_ends (sequential : value.isSequential = true) (charted : value.ChartedIn stage.chart)
    (idle : stage.Idle)
    (comes : (value.courseIn stage.chart).Comes length
      ((value.courseIn stage.chart).reach index.toNat))
    (stops : Course.Stops index.toNat length ((value.courseIn stage.chart).reach index.toNat))
    (within : value.isLinked = true → length < machine.limit) :
    stage.Ends (value.nth index).run fun outcome _ =>
      account.toLikeness.Finds (.error (.indexOutOfBounds index.toInt64 length))
        ((value.courseIn stage.chart).reach index.toNat) outcome := by
  cases value with
  | cons | lazySeq => exact walked_ends charted idle comes stops (within rfl)
  | list | vector => exact atHand_ends comes
  | _ => cases sequential

end

end

end Value

end LispRuntime
