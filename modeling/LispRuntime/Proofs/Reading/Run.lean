import LispRuntime.Proofs.Reading.Moment
import LispRuntime.Proofs.World.Running

/-! Computations that come to an end. A computation gives an answer from a
moment on when it ends with that answer at a later moment. What holds of the
answer is said by a predicate, and a computation made of several is followed
step by step. -/

namespace LispRuntime

/-- The computation ends, later, with an answer for which the predicate holds. -/
def Gives {α : Type} (machine : Machine) (before : Moment) (computation : Run α)
    (post : α → Moment → Prop) : Prop :=
  ∃ answer after, computation machine before.world = some (answer, after.world) ∧
    before ≤ after ∧ post answer after

/-- The attempt ends, later, and without an error. -/
def Succeeds {α : Type} (machine : Machine) (before : Moment) (attempt : Attempt α)
    (post : α → Moment → Prop) : Prop :=
  Gives machine before attempt.run fun outcome after =>
    ∃ answer, outcome = .ok answer ∧ post answer after

section

variable {machine : Machine} {before : Moment} {α β : Type}

namespace Gives

theorem pure {answer : α} {post : α → Moment → Prop} (holds : post answer before) :
    Gives machine before (Pure.pure answer) post :=
  Run.Ends.pure holds

theorem bind {computation : Run α} {next : α → Run β} {middle : α → Moment → Prop}
    {post : β → Moment → Prop} (gives : Gives machine before computation middle)
    (goesOn : ∀ answer between, before ≤ between → middle answer between →
      Gives machine between (next answer) post) :
    Gives machine before (computation >>= next) post :=
  Run.Ends.bind gives goesOn

theorem weaken {computation : Run α} {strong weak : α → Moment → Prop}
    (gives : Gives machine before computation strong)
    (implies : ∀ answer after, before ≤ after → strong answer after → weak answer after) :
    Gives machine before computation weak :=
  Run.Ends.weaken gives implies

/-- A look at the world or the machine changes nothing. -/
theorem looking {computation : Run α} {answer : α}
    (seen : computation machine before.world = some (answer, before.world))
    {next : α → Run β} {post : β → Moment → Prop}
    (gives : Gives machine before (next answer) post) :
    Gives machine before (computation >>= next) post :=
  Run.Ends.looking seen gives

theorem freshAddress : Gives machine before Run.freshAddress fun _ _ => True :=
  ⟨_, before.skip, rfl, before.le_skip, trivial⟩

/-- Visiting one element after the other. What is good for a visit stays good
while others are visited, and so does what came of it. -/
theorem mapM {γ : Type} {visit : α → Run β} (Good : Moment → α → γ → Prop)
    (Result : Moment → β → γ → Prop)
    (goodLater : ∀ {moment later}, moment ≤ later → ∀ element datum,
      Good moment element datum → Good later element datum)
    (resultLater : ∀ {moment later}, moment ≤ later → ∀ answer datum,
      Result moment answer datum → Result later answer datum)
    {elements : List α} {data : List γ} (good : List.Forall₂ (Good before) elements data)
    (visits : ∀ moment, before ≤ moment → ∀ element, ∀ datum ∈ data,
      Good moment element datum →
      Gives machine moment (visit element) fun answer after => Result after answer datum) :
    Gives machine before (elements.mapM visit) fun answers after =>
      List.Forall₂ (Result after) answers data :=
  Run.Ends.mapM Good Result goodLater resultLater good visits

/-- Going through a list with a state that something is known about. -/
theorem foldlM {γ : Type} {step : β → α → Run β} {advance : γ → α → γ} (Good : β → γ → Prop)
    {elements : List α} {state : β} {known : γ} (good : Good state known)
    (steps : ∀ moment, before ≤ moment → ∀ element ∈ elements, ∀ state known,
      Good state known →
      Gives machine moment (step state element) fun next _ => Good next (advance known element)) :
    Gives machine before (elements.foldlM step state) fun last _ =>
      Good last (elements.foldl advance known) := by
  induction elements generalizing before state known with
  | nil => exact Gives.pure good
  | cons element rest induction =>
      rw [List.foldlM_cons]
      apply (steps before (le_refl _) element (List.mem_cons_self ..) state known good).bind
      intro next between le goodNext
      exact induction goodNext fun moment leMoment other member =>
        steps moment (le.trans leMoment) other (List.mem_cons_of_mem _ member)

end Gives

namespace Succeeds

theorem pure {answer : α} {post : α → Moment → Prop} (holds : post answer before) :
    Succeeds machine before (Pure.pure answer) post :=
  Gives.pure ⟨answer, rfl, holds⟩

theorem bind {attempt : Attempt α} {next : α → Attempt β} {middle : α → Moment → Prop}
    {post : β → Moment → Prop} (succeeds : Succeeds machine before attempt middle)
    (goesOn : ∀ answer between, before ≤ between → middle answer between →
      Succeeds machine between (next answer) post) :
    Succeeds machine before (attempt >>= next) post := by
  apply Gives.bind succeeds
  rintro _ between le ⟨answer, rfl, holds⟩
  exact goesOn answer between le holds

/-- What cannot fail succeeds. -/
theorem lift {computation : Run α} {post : α → Moment → Prop}
    (gives : Gives machine before computation post) :
    Succeeds machine before (ExceptT.lift computation) post :=
  gives.bind fun answer _ _ holds => Gives.pure ⟨answer, rfl, holds⟩

theorem looking {computation : Run α} {answer : α}
    (seen : computation machine before.world = some (answer, before.world))
    {next : α → Attempt β} {post : β → Moment → Prop}
    (succeeds : Succeeds machine before (next answer) post) :
    Succeeds machine before (ExceptT.lift computation >>= next) post := by
  have looked : Succeeds machine before (ExceptT.lift computation) fun found after =>
      answer = found ∧ before = after :=
    lift ⟨answer, before, seen, le_refl _, rfl, rfl⟩
  apply looked.bind
  rintro _ _ _ ⟨rfl, rfl⟩
  exact succeeds

end Succeeds

/-- What comes first in an attempt that ends well ended well, too. -/
theorem Attempt.of_bind_eq_ok {attempt : Attempt α} {next : α → Attempt β}
    {world after : World} {answer : β}
    (ran : (attempt >>= next).run machine world = some (.ok answer, after)) :
    ∃ middle between, attempt.run machine world = some (.ok middle, between) ∧
      (next middle).run machine between = some (.ok answer, after) := by
  rcases Attempt.exists_of_bind ran with ⟨_, _, impossible⟩ | found
  · cases impossible
  · exact found

/-! ## Lasting answers -/

/-- From this moment on the computation always ends, and always with this answer. -/
def Always (machine : Machine) (moment : Moment) (computation : Run α) (answer : α) : Prop :=
  ∀ later, moment ≤ later → Gives machine later computation fun found _ => found = answer

/-- The computation has ended with this answer once, at this moment or later. -/
def Once (machine : Machine) (moment : Moment) (computation : Run α) (answer : α) : Prop :=
  ∃ later, moment ≤ later ∧ ∃ world, computation machine later.world = some (answer, world)

theorem Gives.once {answer : α} {computation : Run α}
    (gives : Gives machine before computation fun found _ => found = answer) :
    Once machine before computation answer :=
  Run.Ends.once gives

theorem Always.once {moment : Moment} {computation : Run α} {answer : α}
    (always : Always machine moment computation answer) :
    Once machine moment computation answer :=
  Run.Always.once always

theorem Always.eq_of_once {moment : Moment} {computation : Run α} {answer other : α}
    (always : Always machine moment computation answer)
    (once : Once machine moment computation other) : other = answer :=
  Run.Always.eq_of_once always once

end

end LispRuntime
