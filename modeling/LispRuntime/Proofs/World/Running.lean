import LispRuntime.World.Run
import Mathlib.Data.List.Forall2
import Mathlib.Order.Basic

/-! Cells after a change of their store, and computations that follow one another to an end. -/

namespace LispRuntime

theorem Ref.index_inj {kind : CellKind} {left right : Ref kind} :
    left.index = right.index ↔ left = right := by
  cases left
  cases right
  simp

namespace Store

variable {α : Type}

theorem get?_push (store : Store α) (cell : α) (index : Nat) :
    (store.push cell).get? index =
      if index = store.next then some cell else store.get? index := by
  rw [get?, push, Array.getElem?_push]
  rfl

theorem lt_next_of_get? {store : Store α} {index : Nat} {cell : α}
    (found : store.get? index = some cell) : index < store.next :=
  (Array.getElem?_eq_some_iff.mp found).1

theorem exists_of_lt_next {store : Store α} {index : Nat} (bound : index < store.next) :
    ∃ cell, store.get? index = some cell :=
  ⟨_, Array.getElem?_eq_getElem bound⟩

theorem get?_set_of_ne (store : Store α) (cell : α) {index other : Nat}
    (different : other ≠ index) : (store.set index cell).get? other = store.get? other := by
  rw [get?_set, if_neg (fun both => different both.1)]

theorem get?_set_self {store : Store α} {index : Nat} {old : α} (cell : α)
    (found : store.get? index = some old) : (store.set index cell).get? index = some cell := by
  rw [get?_set, if_pos ⟨rfl, lt_next_of_get? found⟩]

theorem get?_modify (store : Store α) (index : Nat) (change : α → α) (other : Nat) :
    (store.modify index change).get? other =
      if other = index then (store.get? index).map change else store.get? other := by
  unfold modify
  cases found : store.get? index with
  | none =>
      by_cases same : other = index
      · rw [if_pos same, same, found, Option.map_none]
      · rw [if_neg same]
  | some cell =>
      by_cases same : other = index
      · rw [if_pos same, same, Option.map_some]
        exact get?_set_self _ found
      · rw [if_neg same]
        exact get?_set_of_ne _ _ same

theorem get?_modify_self {store : Store α} {index : Nat} {old : α}
    (found : store.get? index = some old) (change : α → α) :
    (store.modify index change).get? index = some (change old) := by
  rw [get?_modify, if_pos rfl, found, Option.map_some]

@[ext] theorem ext {left right : Store α} (same : ∀ index, left.get? index = right.get? index) :
    left = right := by
  cases left
  cases right
  exact congrArg Store.mk (Array.ext_getElem? same)

theorem modify_eq_self {store : Store α} {index : Nat} {change : α → α}
    (same : ∀ cell, store.get? index = some cell → change cell = cell) :
    store.modify index change = store := by
  ext1 other
  rw [get?_modify]
  split
  case isTrue here =>
    rw [here]
    cases found : store.get? index with
    | none => rfl
    | some cell => exact congrArg some (same cell found)
  case isFalse => rfl

theorem modify_modify (store : Store α) (index : Nat) (first second : α → α) :
    (store.modify index first).modify index second =
      store.modify index fun cell => second (first cell) := by
  ext1 other
  rw [get?_modify, get?_modify, get?_modify, get?_modify, if_pos rfl, Option.map_map]
  split <;> rfl

@[simp] theorem next_push (store : Store α) (cell : α) :
    (store.push cell).next = store.next + 1 :=
  Array.size_push ..

@[simp] theorem next_set (store : Store α) (index : Nat) (cell : α) :
    (store.set index cell).next = store.next :=
  Array.size_setIfInBounds ..

@[simp] theorem next_modify (store : Store α) (index : Nat) (change : α → α) :
    (store.modify index change).next = store.next := by
  unfold modify
  split
  · exact next_set ..
  · rfl

end Store

section

variable {machine : Machine} {world between after : World} {α β : Type}

namespace Run

variable {computation : Run α} {next : α → Run β}

/-- A look at the world changes nothing. -/
theorem run_get : (get : Run World) machine world = some (world, world) := rfl

theorem run_bind {answer : α}
    (ran : computation machine world = some (answer, between)) :
    (computation >>= next) machine world = next answer machine between := by
  change (computation machine world).bind _ = _
  rw [ran]
  rfl

theorem run_bind_none (stuck : computation machine world = none) :
    (computation >>= next) machine world = none := by
  change (computation machine world).bind _ = _
  rw [stuck]
  rfl

/-- Computations that come to the same here, and go on in the same way. -/
theorem run_bind_congr {other : Run α} {otherNext : α → Run β}
    (same : computation machine world = other machine world)
    (rest : ∀ answer, next answer = otherNext answer) :
    (computation >>= next) machine world = (other >>= otherNext) machine world := by
  rw [funext rest]
  exact congrArg (fun answered => Option.bind answered _) same

theorem run_discard (computation : Run α) (machine : Machine) (world : World) :
    discard computation machine world =
      (computation machine world).map fun answered => ((), answered.2) := by
  change (computation machine world).bind _ = _
  cases computation machine world <;> rfl

/-- A computation whose answer is discarded has given one. -/
theorem exists_of_discard
    (ran : (do discard <| computation : Run Unit) machine world = some ((), after)) :
    ∃ answer, computation machine world = some (answer, after) := by
  rw [run_discard] at ran
  rcases Option.map_eq_some_iff.mp ran with ⟨⟨answer, _⟩, inner, pair⟩
  cases pair
  exact ⟨answer, inner⟩

/-- A cell that was looked for was there. -/
theorem eq_some_of_found {cell : Option α} {answer : α}
    (ran : found cell machine world = some (answer, after)) :
    cell = some answer ∧ world = after := by
  cases cell with
  | none => cases ran
  | some _ =>
      cases ran
      exact ⟨rfl, rfl⟩

/-- What a computation of two parts came to, the second part came to after the first. -/
theorem exists_of_bind {last : β}
    (ran : (computation >>= next) machine world = some (last, after)) :
    ∃ answer between, computation machine world = some (answer, between) ∧
      next answer machine between = some (last, after) := by
  rcases Option.bind_eq_some_iff.mp ran with ⟨⟨answer, between⟩, first, rest⟩
  exact ⟨answer, between, first, rest⟩

end Run

namespace Attempt

variable {attempt : Attempt α} {next : α → Attempt β}

theorem run_bind_ok {answer : α} (ran : attempt.run machine world = some (.ok answer, between)) :
    (attempt >>= next).run machine world = (next answer).run machine between :=
  Run.run_bind ran

theorem run_bind_error {error : Error}
    (ran : attempt.run machine world = some (.error error, between)) :
    (attempt >>= next).run machine world = some (.error error, between) :=
  Run.run_bind ran

theorem run_lift {computation : Run α} {answer : α}
    (ran : computation machine world = some (answer, between)) :
    (ExceptT.lift computation : Attempt α).run machine world = some (.ok answer, between) := by
  change (computation machine world).bind _ = _
  rw [ran]
  rfl

theorem run_bind_left_congr {other : Attempt α}
    (same : attempt.run machine world = other.run machine world) :
    (attempt >>= next).run machine world = (other >>= next).run machine world :=
  Run.run_bind_congr same fun _ => rfl

/-- Something that cannot fail comes first. -/
theorem run_first {computation : Run α} {answer : α}
    (ran : computation machine world = some (answer, between)) :
    ((liftM computation : Attempt α) >>= next).run machine world =
      (next answer).run machine between :=
  run_bind_ok (run_lift ran)

theorem run_first_congr {computation other : Run α}
    (same : computation machine world = other machine world) :
    ((liftM computation : Attempt α) >>= next).run machine world =
      ((liftM other : Attempt α) >>= next).run machine world :=
  run_bind_left_congr (congrArg (fun answered => Option.bind answered _) same)

/-- An attempt of two parts came to the error of the first, or the second part came to what it
did after the first. -/
theorem exists_of_bind {last : Except Error β}
    (ran : (attempt >>= next).run machine world = some (last, after)) :
    (∃ error, attempt.run machine world = some (.error error, after) ∧ last = .error error) ∨
      ∃ answer between, attempt.run machine world = some (.ok answer, between) ∧
        (next answer).run machine between = some (last, after) := by
  rcases Run.exists_of_bind ran with ⟨outcome, between, first, rest⟩
  cases outcome with
  | error error =>
      cases rest
      exact .inl ⟨error, first, rfl⟩
  | ok answer => exact .inr ⟨answer, between, first, rest⟩

/-- The outcome of an attempt is passed on in another form. -/
theorem exists_of_map {change : α → β} {last : Except Error β}
    (ran : (attempt >>= fun answer => pure (change answer)).run machine world =
      some (last, after)) :
    ∃ outcome, attempt.run machine world = some (outcome, after) ∧ last = outcome.map change := by
  rcases exists_of_bind ran with ⟨error, failed, rfl⟩ | ⟨answer, between, first, done⟩
  · exact ⟨_, failed, rfl⟩
  · cases done
    exact ⟨_, first, rfl⟩

theorem exists_of_first {computation : Run α} {last : Except Error β}
    (ran : ((liftM computation : Attempt α) >>= next).run machine world = some (last, after)) :
    ∃ answer between, computation machine world = some (answer, between) ∧
      (next answer).run machine between = some (last, after) := by
  rcases Run.exists_of_bind ran with ⟨outcome, between, lifted, rest⟩
  rcases Option.bind_eq_some_iff.mp lifted with ⟨⟨answer, reached⟩, first, done⟩
  cases done
  exact ⟨answer, _, first, rest⟩

end Attempt

end

/-! ## Computations that end -/

section

variable {machine : Machine} {α β σ : Type} [Preorder σ] {worldOf : σ → World} {before : σ}

/-- The computation ends, further on, with an answer for which the predicate holds. How far on
is told by points of any kind, each of which goes with a world. -/
def Run.Ends (worldOf : σ → World) (machine : Machine) (before : σ) (computation : Run α)
    (post : α → σ → Prop) : Prop :=
  ∃ answer after, computation machine (worldOf before) = some (answer, worldOf after) ∧
    before ≤ after ∧ post answer after

namespace Run.Ends

theorem pure {answer : α} {post : α → σ → Prop} (holds : post answer before) :
    Run.Ends worldOf machine before (Pure.pure answer) post :=
  ⟨answer, before, rfl, le_refl _, holds⟩

theorem bind {computation : Run α} {next : α → Run β} {middle : α → σ → Prop}
    {post : β → σ → Prop} (ends : Run.Ends worldOf machine before computation middle)
    (goesOn : ∀ answer between, before ≤ between → middle answer between →
      Run.Ends worldOf machine between (next answer) post) :
    Run.Ends worldOf machine before (computation >>= next) post := by
  rcases ends with ⟨answer, between, ran, le, holds⟩
  rcases goesOn answer between le holds with ⟨last, after, ranNext, leNext, done⟩
  exact ⟨last, after, (Run.run_bind ran).trans ranNext, le.trans leNext, done⟩

theorem weaken {computation : Run α} {strong weak : α → σ → Prop}
    (ends : Run.Ends worldOf machine before computation strong)
    (implies : ∀ answer after, before ≤ after → strong answer after → weak answer after) :
    Run.Ends worldOf machine before computation weak := by
  rcases ends with ⟨answer, after, ran, le, holds⟩
  exact ⟨answer, after, ran, le, implies answer after le holds⟩

/-- A look at the world or the machine changes nothing. -/
theorem looking {computation : Run α} {answer : α}
    (seen : computation machine (worldOf before) = some (answer, worldOf before))
    {next : α → Run β} {post : β → σ → Prop}
    (ends : Run.Ends worldOf machine before (next answer) post) :
    Run.Ends worldOf machine before (computation >>= next) post := by
  have looked : Run.Ends worldOf machine before computation fun found after =>
      answer = found ∧ before = after := ⟨answer, before, seen, le_refl _, rfl, rfl⟩
  apply looked.bind
  rintro _ _ _ ⟨rfl, rfl⟩
  exact ends

/-- Visiting one element after the other. What is good for a visit stays good
while others are visited, and so does what came of it. -/
theorem mapM {γ : Type} {visit : α → Run β} (Good : σ → α → γ → Prop)
    (Result : σ → β → γ → Prop)
    (goodLater : ∀ {point later}, point ≤ later → ∀ element datum,
      Good point element datum → Good later element datum)
    (resultLater : ∀ {point later}, point ≤ later → ∀ answer datum,
      Result point answer datum → Result later answer datum)
    {elements : List α} {data : List γ} (good : List.Forall₂ (Good before) elements data)
    (visits : ∀ point, before ≤ point → ∀ element, ∀ datum ∈ data,
      Good point element datum →
      Run.Ends worldOf machine point (visit element) fun answer after =>
        Result after answer datum) :
    Run.Ends worldOf machine before (elements.mapM visit) fun answers after =>
      List.Forall₂ (Result after) answers data := by
  induction elements generalizing before data with
  | nil =>
      cases good
      exact Run.Ends.pure .nil
  | cons element rest induction =>
      cases good with
      | @cons _ datum _ restData first goodRest =>
          rw [List.mapM_cons]
          apply (visits before (le_refl _) element datum (List.mem_cons_self ..) first).bind
          intro answer between le result
          refine (induction (goodRest.imp (goodLater le)) ?_).bind ?_
          · intro point lePoint other otherDatum member
            exact visits point (le.trans lePoint) other otherDatum
              (List.mem_cons_of_mem _ member)
          · intro answers after leAfter results
            exact Run.Ends.pure (.cons (resultLater leAfter _ _ result) results)

/-- An attempt of two parts, of which the first may fail. -/
theorem attempt {first : Attempt α} {next : α → Attempt β} {middle : Except Error α → σ → Prop}
    {post : Except Error β → σ → Prop} (ends : Run.Ends worldOf machine before first.run middle)
    (fails : ∀ error after, before ≤ after → middle (.error error) after →
      post (.error error) after)
    (goesOn : ∀ answer between, before ≤ between → middle (.ok answer) between →
      Run.Ends worldOf machine between (next answer).run post) :
    Run.Ends worldOf machine before (first >>= next).run post := by
  apply Run.Ends.bind ends
  intro outcome between le holds
  cases outcome with
  | error error => exact Run.Ends.pure (fails error between le holds)
  | ok answer => exact goesOn answer between le holds

/-- The answer is passed on in another form. -/
theorem mapped {first : Attempt α} {change : α → β} {middle : Except Error α → σ → Prop}
    {post : Except Error β → σ → Prop} (ends : Run.Ends worldOf machine before first.run middle)
    (implies : ∀ outcome after, middle outcome after → post (outcome.map change) after) :
    Run.Ends worldOf machine before (first >>= fun answer => Pure.pure (change answer)).run post :=
  ends.attempt (fun error after _ holds => implies (.error error) after holds)
    fun answer between _ holds => Run.Ends.pure (implies (.ok answer) between holds)

/-- What comes first in an attempt cannot fail. -/
theorem first {computation : Run α} {next : α → Attempt β} {middle : α → σ → Prop}
    {post : Except Error β → σ → Prop}
    (ends : Run.Ends worldOf machine before computation middle)
    (goesOn : ∀ answer between, before ≤ between → middle answer between →
      Run.Ends worldOf machine between (next answer).run post) :
    Run.Ends worldOf machine before ((liftM computation : Attempt α) >>= next).run post := by
  rcases ends with ⟨answer, between, ran, le, holds⟩
  rcases goesOn answer between le holds with ⟨last, after, ranNext, leNext, done⟩
  exact ⟨last, after, (Attempt.run_first ran).trans ranNext, le.trans leNext, done⟩

/-- An attempt that cannot fail. -/
theorem lift {computation : Run α} {post : Except Error α → σ → Prop}
    (ends : Run.Ends worldOf machine before computation fun answer after =>
      post (.ok answer) after) :
    Run.Ends worldOf machine before (ExceptT.lift computation : Attempt α).run post := by
  rcases ends with ⟨answer, after, ran, le, holds⟩
  exact ⟨_, after, Attempt.run_lift ran, le, holds⟩

end Run.Ends

/-! ## Lasting answers -/

/-- From this point on the computation always ends, and always with this answer. -/
def Run.Always (worldOf : σ → World) (machine : Machine) (before : σ) (computation : Run α)
    (answer : α) : Prop :=
  ∀ later, before ≤ later →
    Run.Ends worldOf machine later computation fun found _ => found = answer

/-- The computation has ended with this answer once, at this point or further on. -/
def Run.Once (worldOf : σ → World) (machine : Machine) (before : σ) (computation : Run α)
    (answer : α) : Prop :=
  ∃ later, before ≤ later ∧ ∃ world, computation machine (worldOf later) = some (answer, world)

/-- What an answer is known to be like whenever there is one holds of one that there was. -/
theorem Run.Ends.of_run {computation : Run α} {post : α → Prop} {answer : α} {world : World}
    (ends : Run.Ends worldOf machine before computation fun found _ => post found)
    (ran : computation machine (worldOf before) = some (answer, world)) : post answer := by
  rcases ends with ⟨found, after, ranAgain, _, holds⟩
  cases ran.symm.trans ranAgain
  exact holds

/-- What two analyses say of one computation holds at once. -/
theorem Run.Ends.both {computation : Run α} {first : α → σ → Prop} {second : α → Prop}
    (ends : Run.Ends worldOf machine before computation first)
    (endsToo : Run.Ends worldOf machine before computation fun found _ => second found) :
    Run.Ends worldOf machine before computation fun found after =>
      first found after ∧ second found := by
  rcases ends with ⟨answer, after, ran, le, holds⟩
  exact ⟨answer, after, ran, le, holds, endsToo.of_run ran⟩

theorem Run.Ends.once {computation : Run α} {answer : α}
    (ends : Run.Ends worldOf machine before computation fun found _ => found = answer) :
    Run.Once worldOf machine before computation answer := by
  rcases ends with ⟨found, after, ran, _, rfl⟩
  exact ⟨before, le_refl _, worldOf after, ran⟩

theorem Run.Always.once {computation : Run α} {answer : α}
    (always : Run.Always worldOf machine before computation answer) :
    Run.Once worldOf machine before computation answer :=
  (always before (le_refl _)).once

theorem Run.Always.eq_of_once {computation : Run α} {answer other : α}
    (always : Run.Always worldOf machine before computation answer)
    (once : Run.Once worldOf machine before computation other) : other = answer := by
  rcases once with ⟨later, le, world, ran⟩
  exact (always later le).of_run ran

end

end LispRuntime
