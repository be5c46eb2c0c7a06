import LispRuntime.Proofs.World.Running
import LispRuntime.Value.Printing

/-! Printed texts do not depend on the fuel. What is printed with some fuel is printed with
more, so a value has one text in a world, if it has one at all. -/

namespace LispRuntime

/-- Whatever the first computation comes to on the machine, the second one does, too. -/
def Run.Agrees {α : Type} (machine : Machine) (left right : Run α) : Prop :=
  ∀ world answer after, left machine world = some (answer, after) →
    right machine world = some (answer, after)

namespace Run.Agrees

variable {machine : Machine} {α β : Type}

theorem refl (computation : Run α) : Run.Agrees machine computation computation :=
  fun _ _ _ => id

theorem stuck (computation : Run α) : Run.Agrees machine Run.stuck computation :=
  fun _ _ _ => nofun

theorem bind {left right : Run α} {next nextToo : α → Run β}
    (agrees : Run.Agrees machine left right)
    (goesOn : ∀ answer, Run.Agrees machine (next answer) (nextToo answer)) :
    Run.Agrees machine (left >>= next) (right >>= nextToo) := by
  intro world answer after ran
  rcases Run.exists_of_bind ran with ⟨middle, between, first, rest⟩
  exact (Run.run_bind (agrees _ _ _ first)).trans (goesOn _ _ _ _ rest)

theorem after (computation : Run α) {next nextToo : α → Run β}
    (goesOn : ∀ answer, Run.Agrees machine (next answer) (nextToo answer)) :
    Run.Agrees machine (computation >>= next) (computation >>= nextToo) :=
  (refl computation).bind goesOn

theorem map {left right : Run α} (agrees : Run.Agrees machine left right) (change : α → β) :
    Run.Agrees machine (do return change (← left)) (do return change (← right)) :=
  agrees.bind fun _ => refl _

end Run.Agrees

/-! ## One loop -/

namespace Printing

section

variable {σ α : Type}

/-- Elements that are met one after the other, in any way, with a separator between them. -/
def loop (next : σ → Run (Option (Except Error α) × σ)) (display : α → Run String)
    (separator : String) (limit : Option Nat) : Nat → Nat → σ → Run String
  | 0, _, _ => Run.stuck
  | fuel + 1, index, place => do
      match ← next place with
      | (none, _) => return ""
      | (some step, rest) =>
          if isFull limit index then return " ..."
          match step with
          | .error _ => return gap separator index ++ "..."
          | .ok item =>
              let text ← display item
              let more ← loop next display separator limit fuel (index + 1) rest
              return gap separator index ++ text ++ more

theorem steps_eq_loop (display : Value → Run String) (limit : Option Nat) (fuel index : Nat)
    (cursor : Cursor) :
    steps display limit fuel index cursor =
      loop Cursor.next display " " limit fuel index cursor := by
  induction fuel generalizing index cursor with
  | zero => rfl
  | succ fuel induction =>
      unfold steps loop
      refine bind_congr fun answer => ?_
      rcases answer with ⟨_ | error | item, rest⟩
      · rfl
      · rfl
      · simp only [induction]

/-- Elements at hand are met in order, and nothing is done for it. -/
structure Meets (next : σ → Run (Option (Except Error α) × σ)) (place : List α → σ) : Prop where
  nothing : ∃ rest, next (place []) = pure (none, rest)
  element : ∀ item rest, next (place (item :: rest)) = pure (some (.ok item), place rest)

theorem items_eq_loop {next : σ → Run (Option (Except Error α) × σ)} {place : List α → σ}
    (meets : Meets next place) (display : α → Run String) (separator : String)
    (limit : Option Nat) (index : Nat) {elements : List α} {fuel : Nat}
    (enough : elements.length < fuel) :
    items display separator limit index elements =
      loop next display separator limit fuel index (place elements) := by
  induction elements generalizing fuel index with
  | nil =>
      rcases fuel with _ | fuel
      · cases enough
      · rcases meets.nothing with ⟨rest, ended⟩
        unfold items loop
        rw [ended, pure_bind]
  | cons item rest induction =>
      rcases fuel with _ | fuel
      · cases enough
      · unfold items loop
        rw [meets.element, pure_bind, induction _ (Nat.lt_of_succ_lt_succ enough)]

/-- Iterating over a list. -/
def nextOf : List α → Run (Option (Except Error α) × List α)
  | [] => return (none, [])
  | item :: rest => return (some (.ok item), rest)

theorem meets_nextOf : Meets (nextOf : List α → Run _) id where
  nothing := ⟨[], rfl⟩
  element _ _ := rfl

variable {machine : Machine} {display displayToo : α → Run String}
  (agrees : ∀ item, Run.Agrees machine (display item) (displayToo item))
include agrees

theorem loop_agrees (next : σ → Run (Option (Except Error α) × σ)) (separator : String)
    (limit : Option Nat) {fuel more : Nat} (le : fuel ≤ more) (index : Nat) (place : σ) :
    Run.Agrees machine (loop next display separator limit fuel index place)
      (loop next displayToo separator limit more index place) := by
  induction fuel generalizing more index place with
  | zero => exact .stuck _
  | succ fuel induction =>
      rcases more with _ | more
      · cases le
      · refine .after _ fun answer => ?_
        rcases answer with ⟨_ | error | item, rest⟩
        · exact .refl _
        all_goals
          dsimp only
          split
          · exact .refl _
        · exact .refl _
        · exact (agrees item).bind fun _ =>
            (induction (Nat.le_of_succ_le_succ le) (index + 1) rest).map _

theorem items_agrees (separator : String) (limit : Option Nat) (index : Nat) (elements : List α) :
    Run.Agrees machine (items display separator limit index elements)
      (items displayToo separator limit index elements) := by
  have enough := Nat.lt_succ_self elements.length
  rw [items_eq_loop meets_nextOf display separator limit index enough,
    items_eq_loop meets_nextOf displayToo separator limit index enough]
  exact loop_agrees agrees nextOf separator limit (Nat.le_refl _) index elements

end

section

variable {machine : Machine} {display displayToo : Value → Run String}
  (agrees : ∀ value, Run.Agrees machine (display value) (displayToo value))
include agrees

theorem steps_agrees (limit : Option Nat) {fuel more : Nat} (le : fuel ≤ more) (index : Nat)
    (cursor : Cursor) :
    Run.Agrees machine (steps display limit fuel index cursor)
      (steps displayToo limit more index cursor) := by
  rw [steps_eq_loop, steps_eq_loop]
  exact loop_agrees agrees Cursor.next " " limit le index cursor

theorem entry_agrees (pair : Value × Value) :
    Run.Agrees machine (entry display pair) (entry displayToo pair) :=
  (agrees pair.1).bind fun _ => (agrees pair.2).map _

end

end Printing

/-! ## Values -/

section

namespace Value

variable {machine : Machine} {display displayToo : Value → Run String}
  (agrees : ∀ value, Run.Agrees machine (display value) (displayToo value))
include agrees

theorem displayItems_agrees (opening closing : String) (elements : List Value) :
    Run.Agrees machine (displayItems display opening closing elements)
      (displayItems displayToo opening closing elements) :=
  .after _ fun limit => (Printing.items_agrees agrees " " limit 0 elements).map _

theorem displayEntries_agrees (entries : List (Value × Value)) :
    Run.Agrees machine (displayEntries display entries) (displayEntries displayToo entries) :=
  .after _ fun limit =>
    (Printing.items_agrees (Printing.entry_agrees agrees) ", " limit 0 entries).map _

theorem displaySteps_agrees {fuel more : Nat} (le : fuel ≤ more) (value : Value) :
    Run.Agrees machine (displaySteps display fuel value) (displaySteps displayToo more value) :=
  .after _ fun limit => (Printing.steps_agrees agrees limit le 0 (.pending value)).map _

theorem displayHeld_agrees (holder : String) (value : Value) :
    Run.Agrees machine (displayHeld display holder value)
      (displayHeld displayToo holder value) :=
  (agrees value).map _

end Value

end

namespace Value

variable {machine : Machine}

theorem displayWithin_agrees {fuel more : Nat} (le : fuel ≤ more) (value : Value) :
    Run.Agrees machine (value.displayWithin fuel) (value.displayWithin more) := by
  induction fuel generalizing more value with
  | zero => exact .stuck _
  | succ fuel induction =>
      rcases more with _ | more
      · cases le
      · have less := Nat.le_of_succ_le_succ le
        have agrees : ∀ value, Run.Agrees machine (displayWithin fuel value)
            (displayWithin more value) := induction less
        cases value with
        | list | vector | hashSet | sortedSet => exact displayItems_agrees agrees _ _ _
        | arrayMap | hashMap | sortedMap => exact displayEntries_agrees agrees _
        | cons | lazySeq => exact displaySteps_agrees agrees less _
        | atom | volatile => exact .after _ fun _ => displayHeld_agrees agrees _ _
        | reduced => exact displayHeld_agrees agrees _ _
        | delay =>
            refine .after _ fun state => ?_
            cases state with
            | realized => exact displayHeld_agrees agrees _ _
            | _ => exact .refl _
        | boolean answer => cases answer <;> exact .refl _
        | _ => exact .refl _

/-- The text of the value in this world, with the world that is left. -/
def Prints (machine : Machine) (value : Value) (world : World) (text : String) (after : World) :
    Prop :=
  ∃ fuel, value.displayWithin fuel machine world = some (text, after)

namespace Prints

variable {value : Value} {world after : World} {text : String}

theorem of_display (ran : value.display machine world = some (text, after)) :
    value.Prints machine world text after :=
  ⟨machine.limit, ran⟩

theorem enough (prints : value.Prints machine world text after) :
    ∃ enough, ∀ fuel, enough ≤ fuel →
      value.displayWithin fuel machine world = some (text, after) := by
  rcases prints with ⟨enough, ran⟩
  exact ⟨enough, fun fuel le => displayWithin_agrees le value _ _ _ ran⟩

/-- There is one text. -/
theorem unique {other : String} {otherAfter : World}
    (prints : value.Prints machine world text after)
    (printsToo : value.Prints machine world other otherAfter) :
    text = other ∧ after = otherAfter := by
  rcases prints.enough with ⟨first, ran⟩
  rcases printsToo.enough with ⟨second, ranToo⟩
  cases (ran _ (Nat.le_max_left ..)).symm.trans (ranToo _ (Nat.le_max_right ..))
  exact ⟨rfl, rfl⟩

end Prints

end Value

end LispRuntime
