import LispRuntime.Sequence.Cursor
import Mathlib.Data.List.Forall2

/-! The course of a walk: what it meets at each step. There are elements, and after them the end
or an error, if either comes at all. Courses of different walks can be compared up to what is
made anew by each of them. -/

namespace LispRuntime

/-- What a walk meets at each step. What is said of the steps after an error or the end does not
matter. -/
abbrev Course := Nat → Cursor.Yield

namespace Course

def of (items : List Value) : Course := fun index => items[index]?.map .ok

def failing (error : Error) : Course
  | 0 => some (.error error)
  | _ + 1 => none

def cons (first : Value) (rest : Course) : Course
  | 0 => some (.ok first)
  | index + 1 => rest index

def tail (course : Course) : Course := fun index => course (index + 1)

/-- So many elements, and then this. -/
def Comes (course : Course) (length : Nat) (last : Cursor.Yield) : Prop :=
  (∀ index < length, ∃ item, course index = some (.ok item)) ∧ course length = last

/-- A walk to an index stops there, or before when it is over. -/
def Stops (index length : Nat) (last : Cursor.Yield) : Prop :=
  length = index ∨ length < index ∧ ∀ item, last ≠ some (.ok item)

/-- So many steps, as far as the walk goes. An error is its last step. -/
def take : Nat → Course → List (Except Error Value)
  | 0, _ => []
  | count + 1, course =>
      match course 0 with
      | none => []
      | some (.error error) => [.error error]
      | some (.ok item) => .ok item :: course.tail.take count

/-- What is left after one element. Nobody gets past an error or the end. -/
def onward (course : Course) : Course :=
  match course 0 with
  | some (.ok _) => course.tail
  | last => fun _ => last

/-- What is left after so many elements. -/
def past : Course → Nat → Course
  | course, 0 => course
  | course, count + 1 => course.onward.past count

/-- What there is after so many elements: another one, or the error or the end that came before. -/
def reach (course : Course) (count : Nat) : Cursor.Yield := course.past count 0

variable {course : Course} {item : Value} {error : Error} {length : Nat} {last : Cursor.Yield}

theorem onward_of_element (here : course 0 = some (.ok item)) : course.onward = course.tail := by
  rw [onward, here]

theorem onward_of_error (here : course 0 = some (.error error)) :
    course.onward = fun _ => some (.error error) := by
  rw [onward, here]

theorem onward_of_end (here : course 0 = none) : course.onward = fun _ => none := by
  rw [onward, here]

theorem comes_of_eq (here : course 0 = last) : course.Comes 0 last := ⟨fun _ => nofun, here⟩

theorem comes_succ_iff (here : course 0 = some (.ok item)) :
    course.Comes (length + 1) last ↔ course.tail.Comes length last := by
  constructor
  · intro comes
    exact ⟨fun index bound => comes.1 (index + 1) (Nat.succ_lt_succ bound), comes.2⟩
  · intro comes
    refine ⟨fun index bound => ?_, comes.2⟩
    cases index with
    | zero => exact ⟨item, here⟩
    | succ index => exact comes.1 index (Nat.lt_of_succ_lt_succ bound)

theorem reach_of_error (here : course 0 = some (.error error)) (count : Nat) :
    course.reach count = some (.error error) := by
  induction count generalizing course with
  | zero => exact here
  | succ count induction =>
      rw [reach, past, onward_of_error here]
      exact induction rfl

theorem reach_of_end (here : course 0 = none) (count : Nat) : course.reach count = none := by
  induction count generalizing course with
  | zero => exact here
  | succ count induction =>
      rw [reach, past, onward_of_end here]
      exact induction rfl

theorem take_of_end (here : course 0 = none) (count : Nat) : course.take count = [] := by
  cases count with
  | zero => rfl
  | succ count => rw [take, here]

theorem reach_succ (here : course 0 = some (.ok item)) (count : Nat) :
    course.reach (count + 1) = course.tail.reach count := by
  rw [reach, past, onward_of_element here]
  rfl

/-- Up to an index, a walk comes to what is reached there. -/
theorem exists_stops (course : Course) (index : Nat) :
    ∃ length, course.Comes length (course.reach index) ∧
      Stops index length (course.reach index) := by
  induction index generalizing course with
  | zero => exact ⟨0, comes_of_eq rfl, .inl rfl⟩
  | succ index induction =>
      rcases here : course 0 with _ | error | item
      · rw [reach_of_end here]
        exact ⟨0, comes_of_eq here, .inr ⟨Nat.succ_pos index, fun _ => nofun⟩⟩
      · rw [reach_of_error here]
        exact ⟨0, comes_of_eq here, .inr ⟨Nat.succ_pos index, fun _ => nofun⟩⟩
      · rw [reach_succ here]
        rcases induction course.tail with ⟨length, comes, stops⟩
        exact ⟨length + 1, (comes_succ_iff here).mpr comes,
          stops.imp (congrArg Nat.succ) (And.imp_left Nat.succ_lt_succ)⟩

/-- A walk that does not begin with an element is over. -/
theorem Comes.here (comes : course.Comes length last)
    (stops : ∀ item, course 0 ≠ some (.ok item)) : length = 0 ∧ course 0 = last := by
  cases length with
  | zero => exact ⟨rfl, comes.2⟩
  | succ length =>
      rcases comes.1 0 (Nat.succ_pos length) with ⟨item, here⟩
      exact (stops item here).elim

theorem Comes.length_take (comes : course.Comes length last) :
    (course.take length).length = length := by
  induction length generalizing course with
  | zero => rfl
  | succ length induction =>
      rcases comes.1 0 (Nat.succ_pos _) with ⟨item, here⟩
      rw [take, here]
      exact congrArg Nat.succ (induction ((comes_succ_iff here).mp comes))

/-! ## Elements at hand -/

variable {items : List Value}

theorem reach_of_items (items : List Value) (count : Nat) :
    (Course.of items).reach count = items[count]?.map .ok := by
  induction items generalizing count with
  | nil => exact reach_of_end rfl count
  | cons first rest induction =>
      cases count with
      | zero => rfl
      | succ count => exact (reach_succ rfl count).trans (induction count)

theorem comes_of_items (items : List Value) : (Course.of items).Comes items.length none := by
  constructor
  · intro index bound
    refine ⟨items[index], ?_⟩
    rw [of, List.getElem?_eq_getElem bound, Option.map_some]
  · rw [of, List.getElem?_eq_none (Nat.le_refl _), Option.map_none]

/-- There is one end or error. -/
theorem Comes.unique {other : Nat} {otherLast : Cursor.Yield} (comes : course.Comes length last)
    (ended : ∀ item, last ≠ some (.ok item)) (comesOther : course.Comes other otherLast)
    (endedOther : ∀ item, otherLast ≠ some (.ok item)) : length = other ∧ last = otherLast := by
  have same : length = other := by
    rcases Nat.lt_trichotomy length other with shorter | same | longer
    · rcases comesOther.1 length shorter with ⟨item, there⟩
      exact (ended item (comes.2.symm.trans there)).elim
    · exact same
    · rcases comes.1 other longer with ⟨item, there⟩
      exact (endedOther item (comesOther.2.symm.trans there)).elim
  subst same
  exact ⟨rfl, comes.2.symm.trans comesOther.2⟩

end Course

/-- Which values count as the same. Two walks over a map make an entry of their own each. -/
structure Likeness where
  Alike : Value → Value → Prop
  equivalence : Equivalence Alike
  entries : ∀ key value left right,
    Alike (.vector left [key, value] none) (.vector right [key, value] none)

namespace Likeness

variable {likeness : Likeness}

/-- The same is met. -/
inductive Agree (likeness : Likeness) : Cursor.Yield → Cursor.Yield → Prop where
  | ended : Agree likeness none none
  | error {error : Error} : Agree likeness (some (.error error)) (some (.error error))
  | element {left right : Value} (alike : likeness.Alike left right) :
      Agree likeness (some (.ok left)) (some (.ok right))

theorem Agree.refl (yield : Cursor.Yield) : likeness.Agree yield yield := by
  rcases yield with _ | _ | item
  · exact .ended
  · exact .error
  · exact .element (likeness.equivalence.refl item)

theorem Agree.trans {left middle right : Cursor.Yield} (agree : likeness.Agree left middle)
    (agreeAgain : likeness.Agree middle right) : likeness.Agree left right := by
  cases agree with
  | ended => exact agreeAgain
  | error => exact agreeAgain
  | element alike =>
      cases agreeAgain with
      | element alikeAgain => exact .element (likeness.equivalence.trans alike alikeAgain)

/-- Step by step, the same is met. -/
def Same (likeness : Likeness) (left right : Course) : Prop :=
  ∀ index, likeness.Agree (left index) (right index)

def SameSteps (likeness : Likeness) (steps others : List (Except Error Value)) : Prop :=
  List.Forall₂ (fun left right => likeness.Agree (some left) (some right)) steps others

namespace Same

variable {left middle right : Course}

theorem refl (course : Course) : likeness.Same course course := fun index => .refl (course index)

theorem trans (same : likeness.Same left middle) (sameAgain : likeness.Same middle right) :
    likeness.Same left right :=
  fun index => (same index).trans (sameAgain index)

theorem tail (same : likeness.Same left right) : likeness.Same left.tail right.tail :=
  fun index => same (index + 1)

theorem onward (same : likeness.Same left right) : likeness.Same left.onward right.onward := by
  have agree := same 0
  rcases here : left 0 with _ | error | item <;> rw [here] at agree <;>
    rcases there : right 0 with _ | otherError | other <;> rw [there] at agree <;> cases agree
  · rw [Course.onward_of_end here, Course.onward_of_end there]
    exact .refl _
  · rw [Course.onward_of_error here, Course.onward_of_error there]
    exact .refl _
  · rw [Course.onward_of_element here, Course.onward_of_element there]
    exact same.tail

theorem of {items others : List Value} (alike : List.Forall₂ likeness.Alike items others) :
    likeness.Same (.of items) (.of others) := by
  intro index
  induction alike generalizing index with
  | nil => exact .ended
  | cons first rest induction =>
      cases index with
      | zero => exact .element first
      | succ index => exact induction index

end Same

end Likeness

end LispRuntime
